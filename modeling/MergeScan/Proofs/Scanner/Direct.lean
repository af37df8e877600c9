import MergeScan.Proofs.Scanner.Twins

/-! # Direct positioning

A source may offer to go to a column directly. A scan that is after one column makes use of it
where a source has it, and takes the plain ways with all other sources. As long as the direct way
leads where the plain way in the same direction does, nothing of it shows: a scan over sources of
both kinds replies as it would if no source had direct positioning, and no source is asked for it
that does not have it.
-/

namespace MergeScan

variable {σ : Type} [Source σ]

/-! ## Sources without direct positioning -/

/-- A source that is taken to have no direct positioning. -/
structure RangeOnly (σ : Type) where
  source : σ

namespace RangeOnly

/-- An outcome for the source inside. -/
def outcome {α : Type} (inside : α × σ) : α × RangeOnly σ :=
  (inside.1, ⟨inside.2⟩)

instance : Source (RangeOnly σ) where
  remaining hidden := Source.remaining hidden.source
  peek hidden := Source.peek hidden.source
  advance hidden := outcome (Source.advance hidden.source)
  seek hidden key := outcome (Source.seek hidden.source key)
  reseek hidden key := outcome (Source.reseek hidden.source key)
  sequenceId hidden := Source.sequenceId hidden.source
  kind hidden := Source.kind hidden.source
  origin hidden := Source.origin hidden.source
  close hidden := outcome (Source.close hidden.source)

end RangeOnly

/-- A provider of the same sources without direct positioning. -/
def Supply.rangeOnly (supply : Supply σ) : Supply (RangeOnly σ) :=
  fun request => (supply request).map (List.map RangeOnly.mk)

namespace ScannerCall

/-- The same call, where the provider hands out sources without direct positioning. -/
def rangeOnly : ScannerCall σ → ScannerCall (RangeOnly σ)
  | next supply limit => .next (supply.map Supply.rangeOnly) limit
  | seek supply key => .seek (supply.map Supply.rangeOnly) key
  | reseek supply key => .reseek (supply.map Supply.rangeOnly) key
  | sourcesChanged => .sourcesChanged
  | close => .close

/-- The provider that comes with a call. -/
def supply? : ScannerCall σ → Option (Supply σ)
  | next supply _ | seek supply _ | reseek supply _ => supply
  | sourcesChanged | close => none

end ScannerCall

/-! ## Sources whose direct positioning is a short cut -/

namespace Source

/-- Move by the plain way that leads in a direction. -/
def moveByRange (source : σ) (key : Cell) (forward : Bool) : Except SourceError Bool × σ :=
  if forward then reseek source key else seek source key

/-- Sources that cannot be told apart by what they show and do, where direct positioning leaves a
source on the cell on which the plain way in the same direction leaves it, and fails where that
fails. -/
structure ShortCut (alike : σ → σ → Prop) : Prop where
  refl source : alike source source
  peek source other : alike source other → Source.peek source = Source.peek other
  remaining source other : alike source other → Source.remaining source = Source.remaining other
  sequenceId source other : alike source other →
    Source.sequenceId source = Source.sequenceId other
  origin source other : alike source other → Source.origin source = Source.origin other
  advance source other : alike source other →
    (Source.advance source).1 = (Source.advance other).1 ∧
      alike (Source.advance source).2 (Source.advance other).2
  close source other : alike source other →
    (Source.close source).1 = (Source.close other).1 ∧
      Source.kind (Source.close source).2 = Source.kind (Source.close other).2 ∧
      Source.sequenceId (Source.close source).2 = Source.sequenceId (Source.close other).2
  byRange source other key forward : alike source other →
    MovedAlike alike (moveByRange source key forward) (moveByRange other key forward)
  directly source other key forward : alike source other → supportsExactSeek source = true →
    MovedAlike alike (seekExactly source key forward) (moveByRange other key forward)

end Source

/-- Sources that do not gain direct positioning when they are moved. -/
class FixedSource (σ : Type) [Source σ] : Prop extends TraceableSource σ where
  direct_advance (source : σ) :
    Source.supportsExactSeek (Source.advance source).2 = true →
      Source.supportsExactSeek source = true
  direct_seek (source : σ) (key : Cell) :
    Source.supportsExactSeek (Source.seek source key).2 = true →
      Source.supportsExactSeek source = true
  direct_reseek (source : σ) (key : Cell) :
    Source.supportsExactSeek (Source.reseek source key).2 = true →
      Source.supportsExactSeek source = true

/-- Notes of the same use of a source, where the second may be by a plain way instead of the direct
one. -/
inductive Note.ByRange (direct : Origin → Prop) : Note → Note → Prop
  | same (note : Note) : (∀ origin failure, note ≠ .called origin .seekExactly failure) →
      ByRange direct note note
  | instead {origin : Origin} (forward : Bool) (failure : Option SourceError) : direct origin →
      ByRange direct (.called origin .seekExactly failure)
        (.called origin (if forward then .reseek else .seek) failure)

namespace Note.ByRange

variable {direct : Origin → Prop} {origin : Origin} {failure : Option SourceError} {other : Note}

theorem direct_of_called (hnotes : ByRange direct (.called origin .seekExactly failure) other) :
    direct origin := by
  cases hnotes with
  | same _ hplain => exact absurd rfl (hplain origin failure)
  | instead _ _ hdirect => exact hdirect

theorem not_called : ¬ByRange direct other (.called origin .seekExactly failure) := by
  intro hnotes
  generalize hcalled : Note.called origin .seekExactly failure = called at hnotes
  cases hnotes with
  | same _ hplain => exact hplain origin failure hcalled.symm
  | instead forward _ _ => cases forward <;> cases hcalled

end Note.ByRange

/-- The origins of the sources with direct positioning that providers hand out. -/
def Supply.HandsOutDirect (supplies : List (Supply σ)) (request : SourceRequest) (origin : Origin) :
    Prop :=
  ∃ supply ∈ supplies, ∃ sources, supply request = .ok sources ∧ ∃ source ∈ sources,
    Source.supportsExactSeek source = true ∧ Source.origin source = origin

section

variable {alike : σ → σ → Prop} {direct : Origin → Prop} {source : σ} {hidden : RangeOnly σ}

/-- A source with direct positioning, of one of the origins that have it, and one that is like it
but without. -/
structure Hidden (alike : σ → σ → Prop) (direct : Origin → Prop) (source : σ)
    (hidden : RangeOnly σ) : Prop where
  alike : alike source hidden.source
  direct : Source.supportsExactSeek source = true → direct (Source.origin source)

/-- The same plain use of both is noted in the same way. -/
theorem Hidden.use {α : Type} (hhidden : Hidden alike direct source hidden)
    (halike : Source.ShortCut alike) {call : SourceCall} (hcall : call ≠ .seekExactly)
    {first : σ → Except SourceError α × σ}
    {second : RangeOnly σ → Except SourceError α × RangeOnly σ}
    {related : Except SourceError α × σ → Except SourceError α × RangeOnly σ → Prop}
    (hfailure : failureOf (first source).1 = failureOf (second hidden).1)
    (hrelated : related (first source) (second hidden)) :
    (Noted.use call source first).Twins (Note.ByRange direct) related
      (Noted.use call hidden second) := by
  refine ⟨hrelated, .cons ?_ .nil⟩
  rw [halike.origin _ _ hhidden.alike, hfailure]
  exact .same _ (by simp [hcall])

variable [FixedSource σ]

theorem FixedSource.direct_moveByRange (source : σ) (key : Cell) (forward : Bool)
    (hdirect : Source.supportsExactSeek (Source.moveByRange source key forward).2 = true) :
    Source.supportsExactSeek source = true := by
  cases forward with
  | false => exact direct_seek source key hdirect
  | true => exact direct_reseek source key hdirect

theorem FixedSource.origin_moveByRange (source : σ) (key : Cell) (forward : Bool) :
    Source.origin (Source.moveByRange source key forward).2 = Source.origin source := by
  cases forward with
  | false => exact TraceableSource.origin_seek source key
  | true => exact TraceableSource.origin_reseek source key

omit [FixedSource σ] in
/-- What is done to a source by a plain way is done to the source inside. -/
theorem RangeOnly.moveByRange_eq (hidden : RangeOnly σ) (key : Cell) (forward : Bool) :
    Source.moveByRange hidden key forward =
      outcome (Source.moveByRange hidden.source key forward) := by
  cases forward <;> rfl

/-- Moved by a plain way, a source and its counterpart fare alike. -/
theorem Hidden.movedAlike (hhidden : Hidden alike direct source hidden)
    (halike : Source.ShortCut alike) (key : Cell) (forward : Bool) :
    MovedAlike (Hidden alike direct) (Source.moveByRange source key forward)
      (Source.moveByRange hidden key forward) := by
  obtain ⟨hagree, hmoved⟩ := halike.byRange _ _ key forward hhidden.alike
  rw [RangeOnly.moveByRange_eq]
  refine ⟨hagree, hmoved, fun hdirect => ?_⟩
  rw [FixedSource.origin_moveByRange]
  exact hhidden.direct (FixedSource.direct_moveByRange source key forward hdirect)

/-- Moved directly, a source fares like its counterpart that is moved by the plain way. -/
theorem Hidden.movedDirectly (hhidden : Hidden alike direct source hidden)
    (halike : Source.ShortCut alike) (hsupports : Source.supportsExactSeek source = true)
    (key : Cell) (forward : Bool) :
    MovedAlike (Hidden alike direct) (Source.seekExactly source key forward)
      (Source.moveByRange hidden key forward) := by
  obtain ⟨hagree, hmoved⟩ := halike.directly _ _ key forward hhidden.alike hsupports
  rw [RangeOnly.moveByRange_eq]
  refine ⟨hagree, hmoved, fun _ => ?_⟩
  rw [TraceableSource.origin_seekExactly]
  exact hhidden.direct hsupports

/-- A plain way, and how it is noted. -/
theorem Positioning.use_moveByRange {σ : Type} [Source σ] (source : σ) (key : Cell)
    (forward : Bool) :
    (if forward then reseek source key else seek source key) =
      Noted.use (if forward then .reseek else .seek) source (Source.moveByRange · key forward) := by
  cases forward <;> rfl

theorem Hidden.moveByRange (hhidden : Hidden alike direct source hidden)
    (halike : Source.ShortCut alike) (key : Cell) (forward : Bool) :
    (Noted.use (if forward then .reseek else .seek) source (Source.moveByRange · key forward)).Twins
      (Note.ByRange direct) (MovedAlike (Hidden alike direct))
      (Noted.use (if forward then .reseek else .seek) hidden
        (Source.moveByRange · key forward)) := by
  have hmoved := hhidden.movedAlike halike key forward
  exact hhidden.use halike (by cases forward <;> decide) hmoved.failureOf_eq hmoved

/-- A source and its counterpart without direct positioning are twins. -/
theorem Source.ShortCut.twins (halike : ShortCut alike) :
    Source.Twins (Note.ByRange direct) (Hidden alike direct) where
  aside note hnote := .same note fun origin failure => hnote origin .seekExactly failure
  peek _ _ hhidden := halike.peek _ _ hhidden.alike
  remaining _ _ hhidden := halike.remaining _ _ hhidden.alike
  sequenceId _ _ hhidden := halike.sequenceId _ _ hhidden.alike
  origin _ _ hhidden := halike.origin _ _ hhidden.alike
  advance source hidden hhidden := by
    obtain ⟨hanswer, hmoved⟩ := halike.advance _ _ hhidden.alike
    refine hhidden.use halike (by decide) (congrArg failureOf hanswer) ⟨hanswer, hmoved, ?_⟩
    intro hdirect
    rw [TraceableSource.origin_advance]
    exact hhidden.direct (FixedSource.direct_advance source hdirect)
  close source hidden hhidden := by
    have hclosed := halike.close _ _ hhidden.alike
    exact hhidden.use halike (by decide) (congrArg failureOf hclosed.1) hclosed
  seek source hidden key hhidden := hhidden.moveByRange halike key false
  reseek source hidden key hhidden := hhidden.moveByRange halike key true
  exactly forward source hidden key hhidden := by
    have hplain : Positioning.exactly forward hidden key =
        Noted.use (if forward then .reseek else .seek) hidden (Source.moveByRange · key forward) :=
      Positioning.use_moveByRange hidden key forward
    rw [hplain]
    unfold Positioning.exactly
    split
    next hsupports =>
      -- one is positioned directly where the other one seeks, and each notes its own call
      have hmoved := hhidden.movedDirectly halike hsupports key forward
      refine ⟨hmoved, .cons ?_ .nil⟩
      have hnote := Note.ByRange.instead forward (failureOf (seekExactly source key forward).1)
        (hhidden.direct hsupports)
      rw [hmoved.failureOf_eq] at hnote ⊢
      rwa [halike.origin _ _ hhidden.alike] at hnote ⊢
    next =>
      rw [Positioning.use_moveByRange]
      exact hhidden.moveByRange halike key forward

end

/-! ## The sources of the library -/

instance : FixedSource RunReader where
  direct_advance _ _ := rfl
  direct_seek _ _ _ := rfl
  direct_reseek _ _ _ := rfl

instance : FixedSource BufferCursor where
  direct_advance _ := nofun
  direct_seek _ _ := nofun
  direct_reseek _ _ := nofun

theorem ScriptedSource.script_moveTo (source : ScriptedSource) (start : Nat) (key : Cell)
    (found : Option Cell → Bool) : (source.moveTo start key found).2.script = source.script := by
  unfold moveTo
  split
  · rfl
  · split <;> rfl

instance : FixedSource ScriptedSource where
  direct_advance source hdirect := by
    simp only [Source.advance] at hdirect
    split at hdirect
    · exact hdirect
    · split at hdirect
      · exact hdirect
      · split at hdirect <;> exact hdirect
  direct_seek source key hdirect := by
    simp only [Source.seek, Source.supportsExactSeek, ScriptedSource.script_moveTo] at hdirect
    exact hdirect
  direct_reseek source key hdirect := by
    simp only [Source.reseek, Source.supportsExactSeek, ScriptedSource.script_moveTo] at hdirect
    exact hdirect

instance : FixedSource AnySource where
  direct_advance
    | .run reader => FixedSource.direct_advance reader
    | .buffer cursor => FixedSource.direct_advance cursor
    | .scripted source => FixedSource.direct_advance source
  direct_seek
    | .run reader, key => FixedSource.direct_seek reader key
    | .buffer cursor, key => FixedSource.direct_seek cursor key
    | .scripted source, key => FixedSource.direct_seek source key
  direct_reseek
    | .run reader, key => FixedSource.direct_reseek reader key
    | .buffer cursor, key => FixedSource.direct_reseek cursor key
    | .scripted source, key => FixedSource.direct_reseek source key

namespace Source

/-- Where the direct way leaves a source as it is left by the plain one, it is a short cut. -/
theorem shortCut_eq
    (hdirectly : ∀ (source : σ) key forward, supportsExactSeek source = true →
      MovedAlike Eq (seekExactly source key forward) (moveByRange source key forward)) :
    ShortCut (Eq : σ → σ → Prop) where
  refl _ := rfl
  peek _ _ := congrArg Source.peek
  remaining _ _ := congrArg Source.remaining
  sequenceId _ _ := congrArg Source.sequenceId
  origin _ _ := congrArg Source.origin
  advance := by
    rintro source _ rfl
    exact ⟨rfl, rfl⟩
  close := by
    rintro source _ rfl
    exact ⟨rfl, rfl, rfl⟩
  byRange := by
    rintro source _ key forward rfl
    exact ⟨.of_failureOf rfl, rfl⟩
  directly := by
    rintro source _ key forward rfl hsupports
    exact hdirectly source key forward hsupports

theorem directly_run (reader : RunReader) (key : Cell) (forward : Bool) :
    MovedAlike Eq (seekExactly reader key forward) (moveByRange reader key forward) := by
  cases forward with
  | false =>
      simp only [moveByRange, seekExactly, seek]
      split
      · exact ⟨.error _, rfl⟩
      · exact ⟨.ok trivial, rfl⟩
  | true =>
      simp only [moveByRange, seekExactly, reseek]
      split
      · exact ⟨.error _, rfl⟩
      · exact ⟨.ok trivial, rfl⟩

theorem directly_scripted (source : ScriptedSource) (key : Cell) (forward : Bool)
    (hsupports : supportsExactSeek source = true) :
    MovedAlike Eq (seekExactly source key forward) (moveByRange source key forward) := by
  have hexact : source.script.exact = true := hsupports
  have hmoved (start : Nat) (found other : Option Cell → Bool) :
      MovedAlike Eq (source.moveTo start key found) (source.moveTo start key other) := by
    unfold ScriptedSource.moveTo
    split
    · exact ⟨.error _, rfl⟩
    · split
      · exact ⟨.error _, rfl⟩
      · exact ⟨.ok trivial, rfl⟩
  simp only [seekExactly, hexact, if_true]
  cases forward <;> exact hmoved _ _ _

theorem shortCut_any : ShortCut (Eq : AnySource → AnySource → Prop) := by
  refine shortCut_eq fun source key forward hsupports => ?_
  cases source with
  | run reader =>
      obtain ⟨hagree, hmoved⟩ := directly_run reader key forward
      cases forward <;> exact ⟨hagree, congrArg AnySource.run hmoved⟩
  | buffer cursor => cases hsupports
  | scripted source =>
      obtain ⟨hagree, hmoved⟩ := directly_scripted source key forward hsupports
      cases forward <;> exact ⟨hagree, congrArg AnySource.scripted hmoved⟩

end Source

/-! ## Scans -/

variable {alike : σ → σ → Prop} {request : SourceRequest}

/-- What a provider hands out has a counterpart each without direct positioning. -/
theorem Supply.rangeOnly_twins (halike : Source.ShortCut alike) {supplies : List (Supply σ)}
    {supply : Supply σ} (hsupply : supply ∈ supplies) :
    Supply.Twins (Hidden alike (HandsOutDirect supplies request)) request supply
      supply.rangeOnly := by
  unfold Supply.Twins rangeOnly
  cases hanswer : supply request with
  | error failure => exact .error failure
  | ok sources =>
      refine .ok (List.forall₂_map_right_iff.mpr (List.forall₂_same.mpr fun source hsource => ?_))
      exact ⟨halike.refl source, fun hdirect =>
        ⟨supply, hsupply, sources, hanswer, source, hsource, hdirect, rfl⟩⟩

theorem ScannerCall.rangeOnly_twins (halike : Source.ShortCut alike) {supplies : List (Supply σ)}
    {call : ScannerCall σ} (hcall : ∀ supply, call.supply? = some supply → supply ∈ supplies) :
    ScannerCall.Twins (Hidden alike (Supply.HandsOutDirect supplies request)) request call
      call.rangeOnly := by
  have hsupply (supply : Option (Supply σ))
      (hmem : ∀ given, supply = some given → given ∈ supplies) :
      Option.Rel (Supply.Twins (Hidden alike (Supply.HandsOutDirect supplies request)) request)
        supply (supply.map Supply.rangeOnly) := by
    cases supply with
    | none => exact .none
    | some supply => exact .some (Supply.rangeOnly_twins halike (hmem supply rfl))
  cases call with
  | next supply limit => exact .next limit (hsupply supply hcall)
  | seek supply key => exact .seek key (hsupply supply hcall)
  | reseek supply key => exact .reseek key (hsupply supply hcall)
  | sourcesChanged => exact .sourcesChanged
  | close => exact .close

/-- Where direct positioning is a short cut, a scan over sources of which any have it replies to
all calls as one over the same sources without. It uses the sources in the same way, one use after
the other, but for direct movements in the place of plain ones, and only a source that has direct
positioning is moved directly. -/
theorem Beginning.live_rangeOnly {φ : Type} [CellFilter φ] [FixedSource σ]
    (halike : Source.ShortCut alike) (family : Family) (supply : Supply σ) (subscription : Nat)
    (scan : Scan φ) (calls : List (ScannerCall σ)) (dropped : Bool) :
    let supplies := supply :: calls.filterMap ScannerCall.supply?
    let direct := Supply.HandsOutDirect supplies scan.request
    let lived := (opened family supply subscription scan).live calls dropped
    let plain := (opened family supply.rangeOnly subscription scan).live
      (calls.map ScannerCall.rangeOnly) dropped
    lived.value.seen = plain.value.seen ∧
      List.Forall₂ (Note.ByRange direct) lived.notes plain.notes ∧
      (∀ origin failure, .called origin .seekExactly failure ∈ lived.notes → direct origin) ∧
      ∀ origin failure, .called origin .seekExactly failure ∉ plain.notes := by
  intro supplies direct lived plain
  have hsources : Source.Twins (Note.ByRange direct) (Hidden alike direct) := halike.twins
  have hcalls : List.Forall₂ (ScannerCall.Twins (Hidden alike direct) scan.request) calls
      (calls.map ScannerCall.rangeOnly) := by
    refine List.forall₂_map_right_iff.mpr (List.forall₂_same.mpr fun call hcall => ?_)
    refine ScannerCall.rangeOnly_twins halike fun given hgiven => List.mem_cons_of_mem _ ?_
    exact List.mem_filterMap.mpr ⟨call, hcall, hgiven⟩
  have htwins := live_twins hsources family subscription scan
    (Supply.rangeOnly_twins halike List.mem_cons_self) hcalls dropped
  obtain ⟨hlength, hsimilar⟩ := List.forall₂_iff_get.mp htwins.notes
  refine ⟨htwins.value, htwins.notes, fun origin failure hnote => ?_,
    fun origin failure hnote => ?_⟩
  · obtain ⟨position, hget⟩ := List.get_of_mem hnote
    have hnotes := hsimilar position position.isLt (hlength ▸ position.isLt)
    rw [hget] at hnotes
    exact hnotes.direct_of_called
  · obtain ⟨position, hget⟩ := List.get_of_mem hnote
    have hnotes := hsimilar position (hlength.symm ▸ position.isLt) position.isLt
    rw [hget] at hnotes
    exact Note.ByRange.not_called hnotes

/-- A source with direct positioning and one without, read for one column of three rows, moved on
and exchanged in between. -/
theorem Beginning.live_rangeOnly_of_scripts :
    let family : Family := { name := [102], maxVersions := 1, clock := .manual .oldest }
    let scan : Scan AnyFilter := { columns := [[98]] }
    let cells (row : Bytes) : List Cell :=
      [.put row [102] [97] ⟨1⟩ [1], .put row [102] [98] ⟨2⟩ [1], .put row [102] [98] ⟨1⟩ [1]]
    let direct : SourceScript :=
      { sequenceId := 1, cells := cells [114] ++ cells [116], exact := true }
    let plain : SourceScript := { sequenceId := 2, cells := cells [115] }
    let supply : Supply AnySource :=
      fun _ => .ok [.scripted (direct.open .keys 0), .scripted (plain.open .keys 1)]
    let calls : List (ScannerCall AnySource) :=
      [.next supply .ofScan, .sourcesChanged, .reseek supply (Cell.firstOnRow [115]),
        .next supply (.own (some 1)), .next supply .ofScan, .close]
    let supplies := supply :: calls.filterMap ScannerCall.supply?
    let lived := (opened family supply 0 scan).live calls true
    let hidden :=
      (opened family supply.rangeOnly 0 scan).live (calls.map ScannerCall.rangeOnly) true
    ((Matcher.ofScan family scan).exactColumn = true ∧
      .called (.scripted 0) .seekExactly none ∈ lived.notes) ∧
    Source.ShortCut (Eq : AnySource → AnySource → Prop) ∧
    lived.value.seen = hidden.value.seen ∧
      List.Forall₂ (Note.ByRange (Supply.HandsOutDirect supplies scan.request)) lived.notes
        hidden.notes ∧
      (∀ origin failure, .called origin .seekExactly failure ∈ lived.notes →
        Supply.HandsOutDirect supplies scan.request origin) ∧
      ∀ origin failure, .called origin .seekExactly failure ∉ hidden.notes := by
  intro family scan cells direct plain supply calls supplies lived hidden
  exact ⟨⟨rfl, List.contains_iff_mem.mp rfl⟩, Source.shortCut_any,
    live_rangeOnly Source.shortCut_any family supply 0 scan calls true⟩

end MergeScan
