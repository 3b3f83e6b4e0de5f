import Midge.Compaction.Merge

/-!
# The input streams of a compaction

The files of a compaction are read as streams of events: a stream per file of
L0 or of a repair, and one chain per deeper level. A chain checks that its keys
stay in order; where they do not, the event fails and so does the compaction.
Streams that were read without a failure are in key order and hold the events
of all the files (`of_returns_collectCompactionStreamInputs`).
-/

namespace Midge

open CompactionEvent KWayMerge List Exec

/-! ## Well-formed streams -/

/-- The versions of an SST are in key order. -/
def SstContents.KeySorted (d : SstContents) : Prop :=
  (d.versions.map RawSstVersion.key).Pairwise (· ≤ ·)

/-- The versions of every file that can be opened are in key order. -/
abbrev SstDirectory.KeySorted (dir : SstDirectory) (files : List String) : Prop :=
  ∀ name ∈ files, ∀ sst, dir name = .ok sst → sst.KeySorted

/-- A compaction input: its events are in key order, and every range that
    starts ends. -/
structure WellFormedStream (c : CompactionEventCursor) : Prop where
  sorted : ((oks c).map CompactionEvent.key).Pairwise (· ≤ ·)
  ends : ∀ t, rangeStart t ∈ oks c → rangeEnd t ∈ oks c

@[simp]
theorem rangeStart_mem_sstEvents {sst : SstContents} {t : RangeTombstone} :
    rangeStart t ∈ sstEvents sst ↔ t ∈ sst.tombstones := by
  simp [sstEvents, mem_interleave, mem_rangeEvents]

@[simp]
theorem rangeEnd_mem_sstEvents {sst : SstContents} {t : RangeTombstone} :
    rangeEnd t ∈ sstEvents sst ↔ t ∈ sst.tombstones := by
  simp [sstEvents, mem_interleave, mem_rangeEvents]

/-- The stream of an SST whose versions are in key order. -/
theorem wellFormedStream_sstEvents {sst : SstContents} (h : sst.KeySorted) :
    WellFormedStream ((sstEvents sst).map .ok) where
  sorted := by
    rw [oks_map_ok]
    exact pairwise_sstEvents h
  ends t ht := by
    rw [oks_map_ok, rangeStart_mem_sstEvents, rangeEnd_mem_sstEvents] at *
    exact ht

theorem ends_of_wellFormed {inputs : List CompactionEventCursor}
    (h : ∀ c ∈ inputs, WellFormedStream c) (t : RangeTombstone)
    (ht : rangeStart t ∈ inputs.flatMap oks) : rangeEnd t ∈ inputs.flatMap oks := by
  rw [mem_flatMap] at *
  obtain ⟨c, hc, ht⟩ := ht
  exact ⟨c, hc, (h c hc).ends t ht⟩

/-- What the inputs of a compaction hold. -/
def streamContents (inputs : List CompactionEventCursor) : SstContents where
  versions := (inputs.flatMap oks).filterMap version?
  tombstones := (inputs.flatMap oks).filterMap rangeStart?

/-! ## Chains -/

/-- The events that a chain lets through are in key order. -/
theorem pairwise_checkKeyOrder (lastKey : Option Key) (cursor : CompactionEventCursor) :
    EventsSorted (oks (checkKeyOrder lastKey cursor)) ∧
      ∀ last ∈ lastKey, ∀ e ∈ oks (checkKeyOrder lastKey cursor), last ≤ e.key := by
  induction cursor generalizing lastKey with
  | nil => simp [EventsSorted, checkKeyOrder]
  | cons x cursor ih =>
    match x with
    | .error e => simpa [checkKeyOrder, oks_error] using ih lastKey
    | .ok e =>
      rw [checkKeyOrder]
      split_ifs with hlast
      · simpa [oks_error] using ih lastKey
      · obtain ⟨hsorted, hle⟩ := ih (some e.key)
        have hhead : ∀ last ∈ lastKey, last ≤ e.key := by
          intro last hl
          have hl : lastKey = some last := hl
          simpa [hl] using hlast
        refine ⟨?_, fun last hl e' he' => ?_⟩
        · rw [oks_ok, EventsSorted, map_cons, pairwise_cons]
          refine ⟨fun k hk => ?_, hsorted⟩
          obtain ⟨e', he', rfl⟩ := mem_map.1 hk
          exact hle _ rfl e' he'
        · rcases mem_cons.1 he' with rfl | he'
          · exact hhead last hl
          · exact (hhead last hl).trans (hle _ rfl e' he')

/-- A chain without failures lets everything through. -/
theorem checkKeyOrder_of_clean {lastKey : Option Key} {cursor : CompactionEventCursor}
    (h : Clean (checkKeyOrder lastKey cursor)) : checkKeyOrder lastKey cursor = cursor := by
  induction cursor generalizing lastKey with
  | nil => rfl
  | cons x cursor ih =>
    match x with
    | .error e =>
      rw [checkKeyOrder] at h
      obtain ⟨_, ha⟩ := h _ mem_cons_self
      cases ha
    | .ok e =>
      rw [checkKeyOrder] at h ⊢
      split_ifs at h ⊢ with hlast
      · obtain ⟨_, ha⟩ := h _ mem_cons_self
        cases ha
      · rw [ih fun y hy => h y (mem_cons_of_mem _ hy)]

/-- The files are open, with these contents. -/
abbrev Opened (dir : SstDirectory) : List String → List SstContents → Prop :=
  List.Forall₂ fun name sst => dir name = .ok sst

/-- A chain without failures holds the events of all its files. -/
theorem opened_of_clean {dir : SstDirectory} {files : List String}
    (h : Clean (chainedEvents dir files)) :
    ∃ ssts, Opened dir files ssts ∧ oks (chainedEvents dir files) = ssts.flatMap sstEvents := by
  induction files with
  | nil => exact ⟨[], .nil, rfl⟩
  | cons file files ih =>
    rw [chainedEvents] at h ⊢
    cases hd : dir file with
    | error e =>
      simp only [hd] at h
      obtain ⟨_, ha⟩ := h _ mem_cons_self
      cases ha
    | ok sst =>
      simp only [hd] at h ⊢
      obtain ⟨ssts, hssts, heq⟩ := ih fun x hx => h x (mem_append_right _ hx)
      exact ⟨sst :: ssts, .cons hd hssts, by rw [oks_append, oks_map_ok, heq, flatMap_cons]⟩

/-! ## The inputs of a compaction -/

/-- The streams are in key order and, if they were read without a failure, hold
    the events of all the files. -/
structure StreamsOf (dir : SstDirectory) (files : List String)
    (inputs : List CompactionEventCursor) : Prop where
  sorted : ∀ c ∈ inputs, ((oks c).map CompactionEvent.key).Pairwise (· ≤ ·)
  events : (∀ c ∈ inputs, Clean c) →
    ∃ ssts, Opened dir files ssts ∧ inputs.flatMap oks = ssts.flatMap sstEvents

theorem StreamsOf.append {dir : SstDirectory} {files₁ files₂ : List String}
    {inputs₁ inputs₂ : List CompactionEventCursor} (h₁ : StreamsOf dir files₁ inputs₁)
    (h₂ : StreamsOf dir files₂ inputs₂) :
    StreamsOf dir (files₁ ++ files₂) (inputs₁ ++ inputs₂) where
  sorted c hc := by
    rcases mem_append.1 hc with hc | hc
    exacts [h₁.sorted c hc, h₂.sorted c hc]
  events hclean := by
    obtain ⟨ssts₁, ho₁, he₁⟩ := h₁.events fun c hc => hclean c (mem_append_left _ hc)
    obtain ⟨ssts₂, ho₂, he₂⟩ := h₂.events fun c hc => hclean c (mem_append_right _ hc)
    exact ⟨ssts₁ ++ ssts₂, rel_append ho₁ ho₂, by rw [flatMap_append, flatMap_append, he₁, he₂]⟩

/-- The chain of the files of a level, if there are any. -/
theorem streamsOf_chained (dir : SstDirectory) (files : List String) :
    StreamsOf dir files (if files = [] then [] else [chainedSstEventCursor dir files]) := by
  split_ifs with hfiles
  · subst hfiles
    exact ⟨by simp, fun _ => ⟨[], .nil, rfl⟩⟩
  · refine ⟨fun c hc => ?_, fun hclean => ?_⟩
    · rw [mem_singleton.1 hc]
      exact (pairwise_checkKeyOrder none _).1
    · have hclean := hclean _ (mem_singleton_self _)
      have heq := checkKeyOrder_of_clean hclean
      rw [chainedSstEventCursor, heq] at hclean
      obtain ⟨ssts, ho, he⟩ := opened_of_clean hclean
      refine ⟨ssts, ho, ?_⟩
      rw [flatMap_singleton, chainedSstEventCursor, heq, he]

/-- One stream per file, opened one after the other. -/
theorem streamsOf_independent {dir : SstDirectory} {files : List String}
    {inputs : List CompactionEventCursor}
    (hkeys : dir.KeySorted files)
    (h : Returns (files.mapM fun filename => do
      ask
      ofExcept (sstEventCursor dir filename)) inputs) :
    StreamsOf dir files inputs := by
  induction files generalizing inputs with
  | nil =>
    rw [mapM_nil, returns_pure] at h
    subst h
    exact ⟨by simp, fun _ => ⟨[], .nil, rfl⟩⟩
  | cons file files ih =>
    rw [mapM_cons] at h
    obtain ⟨c, hc, h⟩ := returns_bind h
    obtain ⟨cs, hcs, h⟩ := returns_bind h
    obtain rfl := returns_pure.1 h
    replace hc := returns_ofExcept.1 (returns_seq hc :)
    rw [sstEventCursor] at hc
    have hrest := ih (fun f hf => hkeys f (mem_cons_of_mem _ hf)) hcs
    cases hd : dir file with
    | error e => rw [hd] at hc; cases hc
    | ok sst =>
      rw [hd] at hc
      cases hc
      have hone : StreamsOf dir [file] [(sstEvents sst).map .ok] := by
        refine ⟨fun c hc => ?_, fun _ => ⟨[sst], .cons hd .nil, by simp⟩⟩
        rw [mem_singleton.1 hc]
        exact (wellFormedStream_sstEvents (hkeys file mem_cons_self sst hd)).sorted
      exact hone.append hrest

/-- The streams of a compaction hold the events of its source and target
    files. -/
theorem of_returns_collectCompactionStreamInputs {dir : SstDirectory}
    {sourceFiles targetFiles : List String} {sourceLevel : ℕ} {sameLevelRepair : Bool}
    {inputs : List CompactionEventCursor}
    (hkeys : dir.KeySorted sourceFiles)
    (h : Returns (collectCompactionStreamInputs dir sourceFiles targetFiles sourceLevel
      sameLevelRepair) inputs) :
    StreamsOf dir (sourceFiles ++ targetFiles) inputs := by
  obtain ⟨sources, hs, h⟩ := returns_bind (returns_seq h)
  obtain rfl := returns_pure.1 h
  refine .append ?_ (streamsOf_chained dir targetFiles)
  rw [returns_ite] at hs
  rcases hs with ⟨-, hs⟩ | ⟨-, hs⟩
  · exact streamsOf_independent hkeys hs
  · have hchain := streamsOf_chained dir sourceFiles
    rw [returns_ite] at hs
    rcases hs with ⟨hnil, hs⟩ | ⟨hnil, hs⟩
    all_goals
      obtain rfl := returns_pure.1 hs
      simpa [hnil] using hchain

end Midge
