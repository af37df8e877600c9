import MergeScan.Store.Compaction

/-! # Windows of the runs of a store

A compaction takes runs that are neighbours in freshness. The ids that name such a window
select its runs, in whatever order and however often they are given, and a run with a rank
between those of the others takes the place of the window.
-/

namespace MergeScan.Store

variable {store : Store} {ids : List RunId} {inputs newer window older : List SortedRun}
variable {major : Bool}

/-- The run of an id stands at the position that is found for it. -/
theorem position_of_mem {run : SortedRun} (hrun : run ∈ store.runs) :
    store.position run.id = .ok (store.runs.findIdx (·.id = run.id)) := by
  have hlt : store.runs.findIdx (·.id = run.id) < store.runs.length :=
    List.findIdx_lt_length.mpr ⟨run, hrun, by simp⟩
  rw [position, List.findIdx?_eq_some_iff_findIdx_eq.mpr ⟨hlt, rfl⟩]

/-- The positions of the runs that ids name. -/
def positionsOf (store : Store) (ids : List RunId) : List Nat :=
  ids.map fun id => store.runs.findIdx (·.id = id)

/-- Ids are looked up one after the other, up to the first one of no run. -/
theorem mapM_position (store : Store) (ids : List RunId) :
    ids.mapM store.position = match ids.find? fun id => store.runs.all (·.id ≠ id) with
      | some id => .error (.unknownRun id)
      | none => .ok (store.positionsOf ids) := by
  induction ids with
  | nil => rfl
  | cons id rest ih =>
      rw [List.mapM_cons, List.find?_cons]
      cases hunknown : store.runs.all (·.id ≠ id) with
      | true =>
          have hnone : store.runs.findIdx? (·.id = id) = none := by
            simpa [List.findIdx?_eq_none_iff] using hunknown
          rw [position, hnone]
          rfl
      | false =>
          obtain ⟨run, hrun, rfl⟩ : ∃ run ∈ store.runs, run.id = id := by simpa using hunknown
          rw [position_of_mem hrun, ih]
          cases rest.find? fun id => store.runs.all (·.id ≠ id) <;> rfl

theorem find?_unknown_eq_none (hids : ∀ id ∈ ids, ∃ run ∈ store.runs, run.id = id) :
    (ids.find? fun id => store.runs.all (·.id ≠ id)) = none := by
  simpa using hids

/-- Where no two runs have the same id, the run at a position is the one that is found. -/
theorem findIdx_of_getElem? (hnodup : (store.runs.map SortedRun.id).Nodup) {position : Nat}
    {run : SortedRun} (hrun : store.runs[position]? = some run) :
    store.runs.findIdx (·.id = run.id) = position := by
  obtain ⟨hlt, hget⟩ := List.getElem?_eq_some_iff.mp hrun
  have hother : store.runs.findIdx (·.id = run.id) < store.runs.length :=
    List.findIdx_lt_length.mpr ⟨run, List.mem_of_getElem? hrun, by simp⟩
  have hid := List.findIdx_getElem (w := hother)
  rw [decide_eq_true_eq] at hid
  rw [← List.length_map SortedRun.id] at hlt hother
  have hsame : (store.runs.map SortedRun.id)[store.runs.findIdx (·.id = run.id)] =
      (store.runs.map SortedRun.id)[position] := by
    rw [List.getElem_map, List.getElem_map, hid, hget]
  exact (List.getElem_inj hnodup).mp hsame

/-- A stretch of the runs has the runs at its positions. -/
theorem mem_stretch {runs : List SortedRun} {first count : Nat} {run : SortedRun} :
    run ∈ (runs.drop first).take count ↔
      ∃ position, first ≤ position ∧ position < first + count ∧ runs[position]? = some run := by
  rw [List.mem_iff_getElem?]
  constructor
  · rintro ⟨index, hrun⟩
    rw [List.getElem?_take, List.getElem?_drop] at hrun
    split at hrun
    next hlt => exact ⟨first + index, by omega, by omega, hrun⟩
    next => cases hrun
  · rintro ⟨position, hge, hlt, hrun⟩
    have hindex : first + (position - first) = position := by omega
    refine ⟨position - first, ?_⟩
    rw [List.getElem?_take, List.getElem?_drop, if_pos (by omega), hindex, hrun]

/-- A stretch of the runs stands between the ones before it and the ones behind it. -/
theorem stretch_between (runs : List SortedRun) (first count : Nat) :
    runs.take first ++ (runs.drop first).take count ++ runs.drop (first + count) = runs := by
  rw [List.append_assoc, ← List.drop_drop, List.take_append_drop, List.take_append_drop]

/-- Runs from a position on, each with its position. -/
theorem getElem?_zipIdx_window (runs : List SortedRun) (first count index : Nat) :
    ((runs.zipIdx.drop first).take count)[index]? =
      if index < count then runs[first + index]?.map fun run => (run, first + index) else none := by
  rw [List.getElem?_take, List.getElem?_drop, List.getElem?_zipIdx]
  simp only [Nat.zero_add]

/-- Positions between two of a list without a gap belong to the list. -/
theorem firstGap?_eq_none {positions : List Nat} {runs : List SortedRun}
    (hbetween : ∀ first last position, first ∈ positions → last ∈ positions → first ≤ position →
      position ≤ last → position ∈ positions) : firstGap? positions runs = none := by
  unfold firstGap?
  split
  next first last hfirst hlast =>
    rw [List.findSome?_eq_none_iff]
    rintro ⟨run, position⟩ hmem
    have hpositions : first ≤ position ∧ position ≤ last := by
      obtain ⟨index, hindex⟩ := List.getElem?_of_mem hmem
      rw [getElem?_zipIdx_window] at hindex
      split at hindex
      next hlt =>
        obtain ⟨other, -, heq⟩ := Option.map_eq_some_iff.mp hindex
        obtain rfl := congrArg Prod.snd heq
        exact ⟨Nat.le_add_right first index, by omega⟩
      next => cases hindex
    have hposition := hbetween first last position (List.min?_mem hfirst) (List.max?_mem hlast)
      hpositions.1 hpositions.2
    simp [hposition]
  next => rfl

/-- The first gap between positions comes after positions without a gap. -/
theorem of_firstGap?_eq_some {positions : List Nat} {runs : List SortedRun} {run : SortedRun}
    (hgap : firstGap? positions runs = some run) :
    ∃ first last position, positions.min? = some first ∧ positions.max? = some last ∧
      first ≤ position ∧ position ≤ last ∧ runs[position]? = some run ∧ position ∉ positions ∧
        ∀ earlier, first ≤ earlier → earlier < position → earlier ∈ positions := by
  unfold firstGap? at hgap
  split at hgap
  next first last hfirst hlast =>
    obtain ⟨before, ⟨other, position⟩, after, hsplit, hother, hbefore⟩ :=
      List.findSome?_eq_some_iff.mp hgap
    have hitem (index : Nat) := getElem?_zipIdx_window runs first (last + 1 - first) index
    rw [hsplit] at hitem
    have hfound := hitem before.length
    rw [List.getElem?_append_right (Nat.le_refl _), Nat.sub_self, List.getElem?_cons_zero] at hfound
    split at hfound
    next hlt =>
      obtain ⟨found, hrun, heq⟩ := Option.map_eq_some_iff.mp hfound.symm
      cases heq
      dsimp only at hother
      split at hother
      · cases hother
      next hnot =>
        cases hother
        refine ⟨first, last, first + before.length, hfirst, hlast, Nat.le_add_right _ _, by omega,
          hrun, by simpa using hnot, fun earlier hge hbelow => ?_⟩
        have hindex := hitem (earlier - first)
        have hadd : first + (earlier - first) = earlier := by omega
        obtain ⟨hlength, -⟩ := List.getElem?_eq_some_iff.mp hrun
        rw [List.getElem?_append_left (by omega), if_pos (by omega), hadd,
          List.getElem?_eq_getElem (by omega : earlier < runs.length), Option.map_some] at hindex
        simpa using hbefore _ (List.mem_of_getElem? hindex)
    next => cases hfound
  next => cases hgap

/-- A window of the runs of a store, which ids name. -/
structure Window (store : Store) (ids : List RunId) (newer window older : List SortedRun) :
    Prop where
  runs : store.runs = newer ++ window ++ older
  names id : id ∈ ids ↔ ∃ run ∈ window, run.id = id

theorem Window.mem_runs (hwindow : Window store ids newer window older) {run : SortedRun}
    (hrun : run ∈ newer ++ window ++ older) : run ∈ store.runs :=
  hwindow.runs ▸ hrun

theorem Window.mem_inputs (hwindow : Window store ids newer window older) {run : SortedRun}
    (hrun : run ∈ window) : run ∈ store.runs :=
  hwindow.mem_runs (List.mem_append_left _ (List.mem_append_right _ hrun))

/-- The runs of a window are the ones that its ids select. -/
theorem Window.mem_ids (hwindow : Window store ids newer window older)
    (hnodup : (store.runs.map SortedRun.id).Nodup) :
    (∀ run ∈ newer, run.id ∉ ids) ∧ (∀ run ∈ window, run.id ∈ ids) ∧
      ∀ run ∈ older, run.id ∉ ids := by
  rw [hwindow.runs, List.map_append, List.map_append, List.nodup_append,
    List.nodup_append] at hnodup
  obtain ⟨⟨-, -, hnewer⟩, -, holder⟩ := hnodup
  refine ⟨fun run hrun hid => ?_, fun run hrun => (hwindow.names _).mpr ⟨run, hrun, rfl⟩,
    fun run hrun hid => ?_⟩ <;> obtain ⟨other, hother, heq⟩ := (hwindow.names _).mp hid
  · exact hnewer _ (List.mem_map_of_mem hrun) _ (List.mem_map_of_mem hother) heq.symm
  · exact holder _ (List.mem_append_right _ (List.mem_map_of_mem hother)) _
      (List.mem_map_of_mem hrun) heq

theorem Window.mapM_position (hwindow : Window store ids newer window older) :
    ids.mapM store.position = .ok (store.positionsOf ids) := by
  rw [Store.mapM_position, find?_unknown_eq_none]
  intro id hid
  obtain ⟨run, hrun, hsame⟩ := (hwindow.names id).mp hid
  exact ⟨run, hwindow.mem_inputs hrun, hsame⟩

/-- The run at a position is named by its id. -/
theorem mem_positionsOf (hnodup : (store.runs.map SortedRun.id).Nodup)
    (hids : ∀ id ∈ ids, ∃ run ∈ store.runs, run.id = id) {position : Nat} {run : SortedRun}
    (hrun : store.runs[position]? = some run) :
    position ∈ store.positionsOf ids ↔ run.id ∈ ids := by
  constructor
  · intro hposition
    obtain ⟨id, hid, heq⟩ := List.mem_map.mp hposition
    obtain ⟨other, hother, rfl⟩ := hids id hid
    obtain ⟨index, hindex⟩ := List.getElem?_of_mem hother
    rw [findIdx_of_getElem? hnodup hindex] at heq
    rw [heq, hrun] at hindex
    cases hindex
    exact hid
  · intro hid
    exact List.mem_map.mpr ⟨_, hid, findIdx_of_getElem? hnodup hrun⟩

/-- The ids of a window name the positions of its runs. -/
theorem Window.mem_positionsOf (hwindow : Window store ids newer window older)
    (hnodup : (store.runs.map SortedRun.id).Nodup) (position : Nat) :
    position ∈ store.positionsOf ids ↔
      newer.length ≤ position ∧ position < newer.length + window.length := by
  obtain ⟨hnewer, hchosen, holder⟩ := hwindow.mem_ids hnodup
  have hids : ∀ id ∈ ids, ∃ run ∈ store.runs, run.id = id := fun id hid => by
    obtain ⟨run, hrun, rfl⟩ := (hwindow.names id).mp hid
    exact ⟨run, hwindow.mem_inputs hrun, rfl⟩
  cases hrun : store.runs[position]? with
  | none =>
      -- every id is found at a position that there is
      have hpast := List.getElem?_eq_none_iff.mp hrun
      have hlength : newer.length + window.length ≤ store.runs.length := by
        simp [hwindow.runs]
      refine iff_of_false (fun hposition => ?_) (by omega)
      obtain ⟨id, hid, rfl⟩ := List.mem_map.mp hposition
      obtain ⟨run, hmem, rfl⟩ := hids id hid
      have hlt : store.runs.findIdx (·.id = run.id) < store.runs.length :=
        List.findIdx_lt_length.mpr ⟨run, hmem, by simp⟩
      omega
  | some run =>
      rw [Store.mem_positionsOf hnodup hids hrun]
      rw [hwindow.runs, List.getElem?_append, List.getElem?_append, List.length_append] at hrun
      split at hrun
      · split at hrun
        · exact iff_of_false (hnewer run (List.mem_of_getElem? hrun)) (by omega)
        · exact iff_of_true (hchosen run (List.mem_of_getElem? hrun)) (by omega)
      · exact iff_of_false (holder run (List.mem_of_getElem? hrun)) (by omega)

/-- Of three lists one after the other, the items at the positions of the middle one. -/
theorem filter_zipIdx_middle {positions : List Nat} {first middle last : List SortedRun}
    (hpositions : ∀ position, position ∈ positions ↔
      first.length ≤ position ∧ position < first.length + middle.length) :
    ((first ++ middle ++ last).zipIdx.filter fun item => positions.contains item.2).map Prod.fst =
      middle := by
  have hskip (runs : List SortedRun) (start : Nat)
      (hout : ∀ position, start ≤ position → position < start + runs.length →
        position ∉ positions) :
      (runs.zipIdx start).filter (fun item => positions.contains item.2) = [] := by
    rw [List.filter_eq_nil_iff]
    rintro ⟨run, position⟩ hitem
    have hbounds := List.mem_zipIdx hitem
    simpa using hout position hbounds.1 hbounds.2.1
  have hkeep : (middle.zipIdx first.length).filter (fun item => positions.contains item.2) =
      middle.zipIdx first.length := by
    rw [List.filter_eq_self]
    rintro ⟨run, position⟩ hitem
    have hbounds := List.mem_zipIdx hitem
    simpa using (hpositions position).mpr ⟨hbounds.1, hbounds.2.1⟩
  rw [List.zipIdx_append, List.zipIdx_append, List.filter_append, List.filter_append, Nat.zero_add,
    hkeep, hskip first, hskip last, List.nil_append, List.append_nil, List.zipIdx_map_fst] <;>
    intro position hge hlt <;> rw [hpositions]
  · rw [List.length_append] at hge
    omega
  · omega

/-- The ids of a window select it. A complete compaction is refused unless it has all runs. -/
theorem Window.selectRuns_eq (hwindow : Window store ids newer window older)
    (hnodup : (store.runs.map SortedRun.id).Nodup) (major : Bool) :
    store.selectRuns ids major =
      if major && window.length ≠ store.runs.length then
        .error (.partialSelection window.length store.runs.length)
      else .ok window := by
  have hpositions := hwindow.mem_positionsOf hnodup
  have hgap : firstGap? (store.positionsOf ids) store.runs = none := by
    refine firstGap?_eq_none fun first last position hfirst hlast hge hle => ?_
    rw [hpositions] at hfirst hlast ⊢
    omega
  have hinputs : (store.runs.zipIdx.filter fun item =>
      (store.positionsOf ids).contains item.2).map Prod.fst = window := by
    rw [hwindow.runs]
    exact filter_zipIdx_middle hpositions
  unfold Store.selectRuns
  rw [hwindow.mapM_position]
  simp only [bind, Except.bind, hgap, hinputs]
  rfl

theorem Window.selectRuns (hwindow : Window store ids newer window older)
    (hnodup : (store.runs.map SortedRun.id).Nodup) {major : Bool}
    (hwhole : major = true → newer = [] ∧ older = []) :
    store.selectRuns ids major = .ok window := by
  rw [hwindow.selectRuns_eq hnodup]
  split
  next hpartial =>
    rw [Bool.and_eq_true, decide_eq_true_eq] at hpartial
    obtain ⟨rfl, rfl⟩ := hwhole hpartial.1
    simp [hwindow.runs] at hpartial
  next => rfl

/-! ## What is selected -/

/-- What holds of the results of a list of successes. -/
theorem of_mapM_ok {α β ε : Type} {act : α → Except ε β} {items : List α} {results : List β}
    (hresults : items.mapM act = .ok results) :
    (∀ item ∈ items, ∃ result ∈ results, act item = .ok result) ∧
      ∀ result ∈ results, ∃ item ∈ items, act item = .ok result := by
  induction items generalizing results with
  | nil =>
      cases hresults
      exact ⟨nofun, nofun⟩
  | cons first rest ih =>
      rw [List.mapM_cons] at hresults
      cases hfirst : act first with
      | error failure =>
          rw [hfirst] at hresults
          cases hresults
      | ok result =>
          cases hrest : rest.mapM act with
          | error failure =>
              rw [hfirst, hrest] at hresults
              cases hresults
          | ok others =>
              rw [hfirst, hrest] at hresults
              cases hresults
              obtain ⟨hitems, hothers⟩ := ih hrest
              refine ⟨List.forall_mem_cons.mpr ⟨⟨result, List.mem_cons_self, hfirst⟩, ?_⟩,
                List.forall_mem_cons.mpr ⟨⟨first, List.mem_cons_self, hfirst⟩, ?_⟩⟩
              · intro item hitem
                obtain ⟨other, hother, hact⟩ := hitems item hitem
                exact ⟨other, List.mem_cons_of_mem _ hother, hact⟩
              · intro other hother
                obtain ⟨item, hitem, hact⟩ := hothers other hother
                exact ⟨item, List.mem_cons_of_mem _ hitem, hact⟩

theorem of_position_ok {id : RunId} {position : Nat}
    (hposition : store.position id = .ok position) :
    ∃ run, store.runs[position]? = some run ∧ run.id = id := by
  unfold Store.position at hposition
  split at hposition
  next found hfound =>
    cases hposition
    obtain ⟨hlt, hid, -⟩ := List.findIdx?_eq_some_iff_getElem.mp hfound
    exact ⟨_, List.getElem?_eq_getElem hlt, of_decide_eq_true hid⟩
  next => cases hposition

/-- Where there is no gap, every position between two selected ones is selected. -/
theorem of_firstGap?_eq_none {positions : List Nat} {runs : List SortedRun}
    (hgap : firstGap? positions runs = none) {first last position : Nat}
    (hfirst : positions.min? = some first) (hlast : positions.max? = some last)
    (hge : first ≤ position) (hle : position ≤ last) {run : SortedRun}
    (hrun : runs[position]? = some run) : position ∈ positions := by
  simp only [firstGap?, hfirst, hlast, List.findSome?_eq_none_iff] at hgap
  have hitem : (run, position) ∈ (runs.zipIdx.drop first).take (last + 1 - first) := by
    refine List.mem_of_getElem? (i := position - first) ?_
    have hindex : first + (position - first) = position := by omega
    rw [getElem?_zipIdx_window, if_pos (by omega), hindex, hrun]
    rfl
  simpa using hgap _ hitem

/-- Positions without a gap are those of a window. -/
theorem Window.of_positions {positions : List Nat}
    (hpositions : ids.mapM store.position = .ok positions)
    (hgap : firstGap? positions store.runs = none) :
    ∃ newer window older, Window store ids newer window older := by
  obtain ⟨hids, hfound⟩ := of_mapM_ok hpositions
  cases hfirst : positions.min? with
  | none =>
      rw [List.min?_eq_none_iff] at hfirst
      refine ⟨[], [], store.runs, rfl, fun id => iff_of_false (fun hid => ?_) nofun⟩
      obtain ⟨position, hposition, -⟩ := hids id hid
      rw [hfirst] at hposition
      cases hposition
  | some first =>
      obtain ⟨hmem, hleast⟩ := List.min?_eq_some_iff.mp hfirst
      obtain ⟨last, hlast⟩ : ∃ last, positions.max? = some last := by
        rw [← Option.isSome_iff_exists, List.isSome_max?_iff]
        exact List.ne_nil_of_mem hmem
      have hgreatest := (List.max?_eq_some_iff.mp hlast).2
      have hspan := hgreatest first hmem
      have hend : first + (last + 1 - first) = last + 1 := by omega
      have hruns := stretch_between store.runs first (last + 1 - first)
      rw [hend] at hruns
      refine ⟨_, _, _, hruns.symm, fun id => ⟨fun hid => ?_, ?_⟩⟩
      · obtain ⟨position, hposition, hok⟩ := hids id hid
        obtain ⟨run, hrun, hsame⟩ := of_position_ok hok
        have hge := hleast position hposition
        have hle := hgreatest position hposition
        exact ⟨run, mem_stretch.mpr ⟨position, hge, by omega, hrun⟩, hsame⟩
      · rintro ⟨run, hrun, rfl⟩
        obtain ⟨position, hge, hlt, hrun⟩ := mem_stretch.mp hrun
        have hposition := of_firstGap?_eq_none hgap hfirst hlast hge (by omega) hrun
        obtain ⟨id, hid, hok⟩ := hfound _ hposition
        obtain ⟨other, hother, rfl⟩ := of_position_ok hok
        rw [hrun] at hother
        cases hother
        exact hid

/-- What a selection that succeeds has found out. -/
theorem of_selectRuns_ok (hselect : store.selectRuns ids major = .ok inputs) :
    ∃ positions, ids.mapM store.position = .ok positions ∧
      firstGap? positions store.runs = none ∧
      (store.runs.zipIdx.filter fun item => positions.contains item.2).map Prod.fst = inputs ∧
      (major = true → inputs.length = store.runs.length) := by
  unfold Store.selectRuns at hselect
  cases hpositions : ids.mapM store.position with
  | error failure =>
      rw [hpositions] at hselect
      cases hselect
  | ok positions =>
      rw [hpositions] at hselect
      simp only [bind, Except.bind] at hselect
      cases hgap : firstGap? positions store.runs with
      | some skipped =>
          rw [hgap] at hselect
          cases hselect
      | none =>
          simp only [hgap] at hselect
          split at hselect
          · cases hselect
          next hwhole =>
            cases hselect
            refine ⟨positions, rfl, hgap, rfl, fun hmajor => ?_⟩
            simpa [hmajor] using hwhole

/-- What ids select is a window of the runs. A complete compaction selects all of them. -/
theorem Window.of_selectRuns (hnodup : (store.runs.map SortedRun.id).Nodup)
    (hselect : store.selectRuns ids major = .ok inputs) :
    ∃ newer older, Window store ids newer inputs older ∧
      (major = true → newer = [] ∧ older = []) := by
  obtain ⟨positions, hpositions, hgap, hinputs, hwhole⟩ := of_selectRuns_ok hselect
  obtain ⟨newer, window, older, hwindow⟩ := of_positions hpositions hgap
  have hpartial : store.selectRuns ids false = .ok window := hwindow.selectRuns hnodup nofun
  obtain ⟨others, hothers, -, hsame, -⟩ := of_selectRuns_ok hpartial
  rw [hpositions] at hothers
  cases hothers
  obtain rfl := hinputs.symm.trans hsame
  refine ⟨newer, older, hwindow, fun hmajor => ?_⟩
  have hlength := hwhole hmajor
  rw [hwindow.runs, List.length_append, List.length_append] at hlength
  exact ⟨List.length_eq_zero_iff.mp (by omega), List.length_eq_zero_iff.mp (by omega)⟩

/-! ## What takes the place of a window -/

/-- Runs by descending rank are all there is to the order of their freshness. -/
theorem byFreshness_eq {runs ranked : List SortedRun} (hperm : ranked.Perm runs)
    (hranked : ranked.Pairwise fun left right => right.sequenceId < left.sequenceId) :
    byFreshness runs = ranked := by
  have hdescending : (byFreshness runs).Pairwise fun left right =>
      right.sequenceId ≤ left.sequenceId := by
    have hsorted := @List.pairwise_mergeSort _
      (fun left right : SortedRun => right.sequenceId ≤ left.sequenceId)
      (by simp only [decide_eq_true_eq]; omega)
      (by simp only [Bool.or_eq_true, decide_eq_true_eq]; omega) runs
    simpa only [byFreshness, decide_eq_true_eq] using hsorted
  have hsame : (byFreshness runs).Perm ranked := (List.mergeSort_perm _ _).trans hperm.symm
  have hdistinct : (byFreshness runs).Pairwise fun left right =>
      left.sequenceId ≠ right.sequenceId :=
    hsame.symm.pairwise (hranked.imp fun hlt => Ne.symm (Nat.ne_of_lt hlt)) fun hne => hne.symm
  have hstrict := (hdescending.and hdistinct).imp fun ⟨hle, hne⟩ =>
    Nat.lt_of_le_of_ne hle (Ne.symm hne)
  apply List.Perm.eq_of_pairwise _ hstrict hranked hsame
  intro left right _ _ hlt hgt
  omega

/-- The runs of a store with others, or none, in the place of a window. -/
def withWindow (store : Store) (newer : List SortedRun) (run : Option SortedRun)
    (older : List SortedRun) : Store :=
  { store with
    runs := newer ++ run.toList ++ older
    runsAdded := store.runsAdded + run.toList.length }

/-- A run with a rank between the others takes the place of the window. -/
theorem Window.replaceRuns (hwindow : Window store ids newer window older)
    (hnodup : (store.runs.map SortedRun.id).Nodup) {run : Option SortedRun}
    (hranked : (newer ++ run.toList ++ older).Pairwise fun left right =>
      right.sequenceId < left.sequenceId) :
    (store.replaceRuns ids run).value = .ok (store.withWindow newer run older) := by
  obtain ⟨hnewer, hchosen, holder⟩ := hwindow.mem_ids hnodup
  have hknown : ids.find? (fun id => (store.run? id).isNone) = none := by
    rw [List.find?_eq_none]
    intro id hid hnone
    obtain ⟨input, hinput, rfl⟩ := (hwindow.names id).mp hid
    rw [Option.isNone_iff_eq_none, run?, List.find?_eq_none] at hnone
    exact hnone input (hwindow.mem_inputs hinput) (by simp)
  have hkept : store.runs.filter (fun run => !ids.contains run.id) = newer ++ older := by
    rw [hwindow.runs, List.filter_append, List.filter_append,
      List.filter_eq_self.mpr (by simpa using hnewer),
      List.filter_eq_nil_iff.mpr (by simpa using hchosen),
      List.filter_eq_self.mpr (by simpa using holder), List.append_nil]
  have hruns : byFreshness (newer ++ older ++ run.toList) = newer ++ run.toList ++ older := by
    refine byFreshness_eq ?_ hranked
    rw [List.append_assoc, List.append_assoc]
    exact List.perm_append_comm.append_left newer
  rw [Store.replaceRuns, hknown]
  simp only [hkept, hruns]
  rfl

end MergeScan.Store
