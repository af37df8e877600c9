import Mathlib
import MergeScan.Proofs.Scanner.Batches
import MergeScan.Proofs.Scanner.Closing
import MergeScan.Proofs.Scanner.Loop

/-! # Progress

A scan over sources in order comes to an end, whatever its filter decides. Each read that does
not end the scan takes at least one cell out of the merge. So a scan cannot be read more often
than it has cells left without saying that there is no more, and no read finds its cells out of
order.
-/

namespace MergeScan

open CellOrder

namespace Scanner

section

variable {σ φ : Type} [Source σ] [CellFilter φ]

/-- How many cells a scanner has still to look at. -/
def remaining (scanner : Scanner σ φ) : Nat :=
  match scanner.phase with
  | .active merge => merge.cellCount
  | _ => 0

/-- The scanner after several reads, whatever they answer. -/
def afterReads (supply : Supply σ) : List ReadLimit → Scanner σ φ → Scanner σ φ
  | [], scanner => scanner
  | limit :: rest, scanner => afterReads supply rest (scanner.next (some supply) limit).value.2

/-- The state that the pass of the next read begins in, if there is a cell to begin with. -/
def nextPass (scanner : Scanner σ φ) : Option (ReadState σ φ) :=
  match scanner.phase with
  | .active merge =>
    merge.peek.map fun first => ⟨merge, (scanner.enterRow first.row).value.matcher⟩
  | _ => none

/-- A read with this limit is refused, because the filter needs whole rows. -/
def Refuses (scanner : Scanner σ φ) (limit : Option Nat) (failure : ScanError) : Prop :=
  ∃ size filter, limit = some size ∧ scanner.matcher.filter = some filter ∧
    CellFilter.needsWholeRow filter = true ∧
    failure = .incompatibleFilter size (CellFilter.describe filter)

end

variable {σ φ : Type} [Source σ] [LawfulSource σ keys] [CellFilter φ] {sure : Prop}
variable {family : Bytes} {scanner after : Scanner σ φ} {limit : Option Nat}

/-- A scan of sources in order, which is under way or has ended. -/
inductive Underway (sure : Prop) (family : Bytes) (scanner : Scanner σ φ) : Prop
  | active {merge : Merge σ} : scanner.phase = .active merge → Merge.Sound keys merge →
      (sure → Merge.Reliable keys merge) →
      scanner.matcher.bare.Prepared family merge.stream → Underway sure family scanner
  | closed : scanner.phase = .closed → Underway sure family scanner

/-- What comes of a read that is not refused. A page that may be followed by another one leaves
fewer cells. Only sources fail, and only if `sure` does not hold. -/
inductive Reads (sure : Prop) (family : Bytes) (scanner : Scanner σ φ) :
    Except ScanError Page × Scanner σ φ → Prop
  | page {page : Page} {after : Scanner σ φ} : SameScan scanner after →
      Underway sure family after →
      (page.more = true → after.remaining < scanner.remaining) →
      Reads sure family scanner (.ok page, after)
  | failed {source : SourceError} {suppressed : List SourceError} {after : Scanner σ φ} : ¬sure →
      SameScan scanner after → Reads sure family scanner (.error (.source source suppressed), after)

omit [CellFilter φ] in
/-- The last page of a scan. -/
theorem Reads.released {cells : List Cell} (hsame : SameScan scanner after) :
    Reads sure family scanner (.ok ⟨cells, false⟩, after.release.value) := by
  obtain ⟨⟨hclosed, -⟩, hreleased⟩ := release_closed after
  exact .page (hsame.trans hreleased) (.closed hclosed) nofun

omit [CellFilter φ] in
/-- A read that has come to some cells ends the scan or goes on. -/
theorem Reads.paged {cells : List Cell} {ending : PassEnd} (hsame : SameScan scanner after)
    (hafter : ending ≠ .scanDone →
      Underway sure family after ∧ after.remaining < scanner.remaining) :
    Reads sure family scanner
      (if ending = .scanDone || ending = .exhausted && cells.isEmpty then do
        let scanner ← after.release
        pure (.ok ⟨cells, false⟩, scanner)
      else pure (.ok ⟨cells, true⟩, after) : Noted (Except ScanError Page × Scanner σ φ)).value := by
  split
  next => exact .released hsame
  next hmore =>
    obtain ⟨hunderway, hless⟩ := hafter (by
      rintro rfl
      exact hmore rfl)
    exact .page hsame hunderway fun _ => hless

omit [LawfulSource σ keys] [Source σ] in
/-- Of a complete row, only the filter remembers anything. -/
theorem completeRow_bare (matcher : Matcher φ) (cells : List Cell) :
    (matcher.completeRow cells).value.2.bare = matcher.bare := by
  unfold Matcher.completeRow
  split
  next =>
    split
    · rfl
    · rfl
  next => rfl

/-- A pass that enters the row of its first cell begins before sources in order. -/
theorem poised_atRow {merge : Merge σ} {matcher : Matcher φ} {first : Cell}
    (hsound : Merge.Sound keys merge) (hreliable : sure → Merge.Reliable keys merge)
    (hprepared : matcher.bare.Prepared family merge.stream) (hpeek : merge.peek = some first) :
    ReadState.Poised sure family none ⟨merge, matcher.atRow first.row⟩ := by
  obtain ⟨rest, hstream⟩ : ∃ rest, merge.stream = first :: rest :=
    List.head?_eq_some_iff.mp (hsound.peek_eq.symm.trans hpeek)
  refine ⟨hsound, hreliable, ?_, nofun⟩
  rw [hstream] at hprepared ⊢
  exact hprepared.atRow_first

theorem read_reads {merge : Merge σ} {first : Cell} (hactive : scanner.phase = .active merge)
    (hsound : Merge.Sound keys merge) (hreliable : sure → Merge.Reliable keys merge)
    (hprepared : scanner.matcher.bare.Prepared family merge.stream)
    (hpeek : merge.peek = some first) :
    Reads sure family scanner (scanner.read merge first limit).value := by
  have hremaining : scanner.remaining = merge.cellCount := by rw [remaining, hactive]
  have hpoised := poised_atRow hsound hreliable hprepared hpeek
  have hends : ReadState.Ends sure family _ (ReadState.pass _ limit).value := hpoised.pass
  simp only [Scanner.read, Noted.value_bind, enterRow_atRow]
  generalize (ReadState.pass ⟨merge, scanner.matcher.atRow first.row⟩ limit).value = outcome
    at hends
  rcases outcome with ⟨failure | ⟨cells, ending⟩, state⟩
  case error =>
      obtain ⟨hfails, source, rfl⟩ := hends.fails failure state rfl
      exact .failed hfails ⟨rfl, rfl, rfl⟩
  case ok =>
      have hreached (matcher : Matcher φ) (hbare : matcher.bare = state.matcher.bare)
          (hending : ending ≠ .scanDone) :
          Underway sure family { scanner with phase := .active state.merge, matcher := matcher } ∧
            state.merge.cellCount < scanner.remaining := by
        obtain ⟨hnext, -, hless⟩ := hends.leaves cells ending state rfl hending
        refine ⟨.active rfl hnext.sound hnext.reliable ?_, ?_⟩
        · exact hbare.symm ▸ hnext.ready.toPrepared
        · rw [hremaining]
          exact hless first hpeek (Matcher.row_atRow _ _)
      -- a complete row may be dropped by the filter, which changes nothing else
      simp only
      split
      · exact .paged ⟨rfl, rfl, rfl⟩ (hreached _ (completeRow_bare state.matcher cells))
      · exact .paged ⟨rfl, rfl, rfl⟩ (hreached _ rfl)

theorem Underway.fill (hunderway : Underway sure family scanner) (supply : Option (Supply σ)) :
    Reads sure family scanner (scanner.fill supply limit).value := by
  cases hunderway with
  | closed hclosed =>
      simp only [Scanner.fill, resync, hclosed, Noted.value_bind, Noted.value_pure]
      refine .page ⟨rfl, rfl, rfl⟩ (.closed hclosed) ?_
      rintro ⟨⟩
  | @active merge hactive hsound hreliable hprepared =>
      simp only [Scanner.fill, resync, hactive, Noted.value_bind, Noted.value_pure]
      cases hpeek : merge.peek with
      | none => exact .released ⟨rfl, rfl, rfl⟩
      | some first => exact read_reads hactive hsound hreliable hprepared hpeek

/-- The answer to a read: it is refused, and the scan stays as it was, or it gives a page, or the
scan ends because a source has failed. -/
inductive Answered (sure : Prop) (family : Bytes) (scanner : Scanner σ φ) (limit : Option Nat) :
    Except ScanError Page × Scanner σ φ → Prop
  | page {page : Page} {after : Scanner σ φ} : SameScan scanner after →
      Underway sure family after →
      (page.more = true → after.remaining < scanner.remaining) →
      Answered sure family scanner limit (.ok page, after)
  | refused {failure : ScanError} : scanner.Refuses limit failure →
      Answered sure family scanner limit (.error failure, scanner)
  | failed {source : SourceError} {suppressed : List SourceError} {after : Scanner σ φ} : ¬sure →
      SameScan scanner after → after.phase = .closed →
      Answered sure family scanner limit (.error (.source source suppressed), after)

/-- A failure of a read ends the scan. -/
theorem Reads.concluding {outcome : Except ScanError Page × Scanner σ φ}
    (hreads : Reads sure family scanner outcome) :
    Answered sure family scanner limit (concluding outcome).value := by
  cases hreads with
  | page hsame hunderway hless => exact .page hsame hunderway hless
  | @failed source suppressed after hfails hsame =>
      obtain ⟨⟨hclosed, -⟩, hreleased⟩ := release_closed after
      have hafter := hsame.trans hreleased
      exact .failed hfails ⟨hafter.request, hafter.order, hafter.batch⟩ hclosed

theorem Underway.next (hunderway : Underway sure family scanner) (supply : Option (Supply σ))
    (limit : ReadLimit) :
    Answered sure family scanner (limit.cells scanner.batch) (scanner.next supply limit).value := by
  unfold Scanner.next
  rw [limitOf_eq]
  split
  next failure hrefuses => exact .refused (of_refuses hrefuses)
  next => exact (hunderway.fill supply).concluding

/-- After any answer the scan is under way or has ended, and has not more to look at if there was
no page. -/
theorem Answered.onwards (hunderway : Underway sure family scanner)
    {outcome : Except ScanError Page × Scanner σ φ}
    (hanswered : Answered sure family scanner limit outcome) :
    Underway sure family outcome.2 ∧ SameScan scanner outcome.2 ∧
      (outcome.1.isOk = false → outcome.2.remaining ≤ scanner.remaining) := by
  cases hanswered with
  | page hsame hafter => exact ⟨hafter, hsame, nofun⟩
  | refused => exact ⟨hunderway, ⟨rfl, rfl, rfl⟩, fun _ => Nat.le_refl _⟩
  | failed _ hsame hclosed =>
      refine ⟨.closed hclosed, hsame, fun _ => ?_⟩
      simp only [remaining, hclosed]
      exact Nat.zero_le _

variable {supply : Supply σ}

theorem Underway.afterReads (hunderway : Underway sure family scanner) (limits : List ReadLimit) :
    Underway sure family (scanner.afterReads supply limits) ∧
      SameScan scanner (scanner.afterReads supply limits) := by
  induction limits generalizing scanner with
  | nil => exact ⟨hunderway, rfl, rfl, rfl⟩
  | cons limit rest ih =>
      obtain ⟨hafter, hsame, -⟩ := (hunderway.next (some supply) limit).onwards hunderway
      obtain ⟨hlast, hrest⟩ := ih hafter
      exact ⟨hlast, hsame.trans hrest⟩

/-- Among more pages than there are cells left, one says that there is no more. -/
theorem Underway.run_ends (hunderway : Underway sure family scanner) {limits : List ReadLimit}
    (hmany : scanner.remaining < (scanner.run (limits.map .read) supply).countP (·.isOk)) :
    ∃ page, .ok page ∈ scanner.run (limits.map .read) supply ∧ page.more = false := by
  induction limits generalizing scanner with
  | nil => cases hmany
  | cons limit rest ih =>
      have hanswered := hunderway.next (some supply) limit
      obtain ⟨hafter, -, hfewer⟩ := hanswered.onwards hunderway
      simp only [List.map_cons, Scanner.run] at hmany ⊢
      generalize (scanner.next (some supply) limit).value = outcome at *
      -- what is left after this read bounds the pages of the later ones
      have hlater (hmany : outcome.2.remaining <
          (outcome.2.run (rest.map .read) supply).countP (·.isOk)) :
          ∃ page, .ok page ∈ outcome.1 :: outcome.2.run (rest.map .read) supply ∧
            page.more = false := by
        obtain ⟨page, hpage, hmore⟩ := ih hafter hmany
        exact ⟨page, List.mem_cons_of_mem _ hpage, hmore⟩
      cases hok : outcome.1.isOk with
      | false =>
          rw [List.countP_cons_of_neg (by simp [hok])] at hmany
          exact hlater (Nat.lt_of_le_of_lt (hfewer hok) hmany)
      | true =>
          rw [List.countP_cons_of_pos (by simp [hok])] at hmany
          cases hanswered with
          | @page page after hsame hnext hless =>
              cases hmore : page.more with
              | false => exact ⟨page, List.mem_cons_self, hmore⟩
              | true =>
                  exact hlater (Nat.lt_of_lt_of_le (hless hmore) (Nat.lt_succ_iff.mp hmany))
          | refused => cases hok
          | failed => cases hok

theorem Underway.nextPass (hunderway : Underway sure family scanner) {begun : ReadState σ φ}
    (hbegun : begun ∈ scanner.nextPass) : ReadState.Poised sure family none begun := by
  unfold Scanner.nextPass at hbegun
  cases hunderway with
  | closed hclosed =>
      rw [hclosed] at hbegun
      cases hbegun
  | @active merge hactive hsound hreliable hprepared =>
      rw [hactive] at hbegun
      obtain ⟨first, hpeek, rfl⟩ := Option.map_eq_some_iff.mp hbegun
      rw [enterRow_atRow]
      exact poised_atRow hsound hreliable hprepared hpeek

/-- A scan that was opened is under way, and has not more to look at than its provider has. -/
theorem open_underway {family : Family} {scan : Scan φ} (hscan : scan.WellFormed)
    (horder : family.order = keys) (hsupply : supply.Orderly family.name scan.request)
    {subscription : Nat}
    (hopen : (Scanner.open family supply subscription scan).value = .ok scanner) :
    Underway (supply.Sound family.name scan.request) family.name scanner ∧
      scanner.batch = scan.batch ∧
      scanner.remaining ≤ (supply.cells scan.request).length := by
  obtain ⟨merge, hactive, hsound, hreliable, hstream, hmatcher, hbatch⟩ :=
    exists_merge_of_open horder hsupply hopen
  refine ⟨.active hactive hsound hreliable ?_, hbatch, ?_⟩
  · rw [hmatcher, hstream]
    exact prepared_ofScan hscan horder (supply.cells_sorted _) hsupply.stored_cells
  · simp only [remaining, hactive]
    rw [Merge.cellCount_eq, hstream]
    exact skipTo_length_le _ _

/-- Over sources in order, a scan goes forward whatever its filter decides. A turn of the loop
that reads moves the sources only to keys after the cell on top, and if it goes on it leaves fewer
cells; so the loop ends by itself. A read gives a page, unless the filter does not allow its limit
or a source fails: it never finds cells or columns out of order. Of more pages than there are
cells left, one says that there is no more. -/
theorem run_progresses {family : Family} {scan : Scan φ} (hscan : scan.WellFormed)
    (horder : family.order = keys) (hsupply : supply.Orderly family.name scan.request)
    (subscription : Nat) :
    (∀ scanner, (Scanner.open family supply subscription scan).value = .ok scanner →
      scanner.remaining ≤ (supply.cells scan.request).length ∧
      ∀ before : List ReadLimit, let reached := scanner.afterReads supply before
        (∀ begun ∈ reached.nextPass, ∀ limit,
          (∀ previous room state cell, begun.Comes limit previous room state →
            state.merge.peek = some cell →
            state.Acts cell (state.turn previous cell).value ∧
              ∀ emitted next, (state.turn previous cell).value = (.ok (.goOn emitted), next) →
                next.merge.cellCount < state.merge.cellCount) ∧
          ∀ fuel, begun.merge.cellCount < fuel →
            ReadState.turns none limit fuel begun = begun.pass limit) ∧
        (∀ limit : ReadLimit, let outcome := (reached.next (some supply) limit).value
          (∃ page, outcome.1 = .ok page) ∨
          (∃ failure, reached.Refuses (limit.cells scan.batch) failure ∧
            outcome = (.error failure, reached)) ∨
          ¬supply.Sound family.name scan.request ∧
            ∃ source suppressed, outcome.1 = .error (.source source suppressed)) ∧
        ∀ limits : List ReadLimit, let answers := reached.run (limits.map .read) supply
          reached.remaining < answers.countP (·.isOk) →
            ∃ page, .ok page ∈ answers ∧ page.more = false) ∧
    (supply.Sound family.name scan.request →
      (∃ scanner, (Scanner.open family supply subscription scan).value = .ok scanner) ∨
      ∃ size filter, scan.batch = some size ∧ scan.filter = some filter ∧
        CellFilter.needsWholeRow filter = true ∧
        (Scanner.open family supply subscription scan).value =
          .error (.incompatibleFilter size (CellFilter.describe filter))) := by
  refine ⟨fun scanner hopen => ?_, fun hsure => ?_⟩
  · obtain ⟨hunderway, hbatch, hfew⟩ := open_underway hscan horder hsupply hopen
    refine ⟨hfew, fun before => ?_⟩
    obtain ⟨hreached, hsame⟩ := @Underway.afterReads _ _ _ _ _ _ _ _ supply hunderway before
    refine ⟨fun begun hbegun limit => ⟨fun previous room state cell hcomes hpeek => ?_,
      fun fuel hfuel => ?_⟩, fun limit => ?_, fun limits => hreached.run_ends⟩
    · have hturned := ((hreached.nextPass hbegun).comes hcomes).turn hpeek
      exact ⟨hturned.acts, fun emitted next hturn => (hturned.goesOn emitted next hturn).2⟩
    · exact (hreached.nextPass hbegun).turns_eq hfuel (by omega)
    · have hanswered := hreached.next (some supply) limit
      rw [hsame.batch, hbatch] at hanswered
      generalize ((scanner.afterReads supply before).next (some supply) limit).value = outcome
        at hanswered
      cases hanswered with
      | page => exact .inl ⟨_, rfl⟩
      | refused hrefuses => exact .inr (.inl ⟨_, hrefuses, rfl⟩)
      | failed hfails => exact .inr (.inr ⟨hfails, _, _, rfl⟩)
  · cases hvalid : scan.validate with
    | ok => exact .inl (open_of_validate hvalid hsure subscription)
    | error failure =>
        obtain ⟨size, filter, hbatch, hfilter, hwhole, rfl⟩ := of_validate_error hvalid
        refine .inr ⟨size, filter, hbatch, hfilter, hwhole, ?_⟩
        simp only [Scanner.open, hvalid]
        rfl

/-- A filter that leads back to the beginning of the row from the second of three columns. -/
theorem run_progresses_of_script :
    let family : Family := { name := [102], maxVersions := 1, clock := .manual .oldest }
    let filter : FilterScript :=
      ⟨[⟨[98], none, .seekHint⟩], .keep, .firstOnRow, [], none, none, none, 0⟩
    let scan : Scan AnyFilter := { filter := some (.scripted filter) }
    let script : SourceScript :=
      { sequenceId := 1
        cells := [.put [114] [102] [97] ⟨1⟩ [1], .put [114] [102] [98] ⟨1⟩ [1],
          .put [114] [102] [99] ⟨1⟩ [1]] }
    let supply : Supply ScriptedSource := fun _ => .ok [script.open .keys 0]
    ∃ scanner, (Scanner.open family supply 0 scan).value = .ok scanner ∧
      ∃ page, .ok page ∈ scanner.run (List.replicate 4 (.read .ofScan)) supply ∧
        page.more = false := by
  intro family filter scan script supply
  have hscan : scan.WellFormed := ⟨List.Pairwise.nil, by decide⟩
  have hsupply : supply.Sound family.name scan.request :=
    script.sound ⟨rfl, rfl⟩ (by decide) (by decide) _
  obtain ⟨hprogresses, -⟩ :=
    @run_progresses _ _ _ _ _ supply family scan hscan rfl hsupply.orderly 0
  refine ⟨_, rfl, ?_⟩
  obtain ⟨-, hreads⟩ := hprogresses _ rfl
  obtain ⟨-, -, hends⟩ := hreads []
  exact hends (List.replicate 4 .ofScan) (by cbv)

end Scanner

end MergeScan
