import Midge.Compaction.Execute
import Midge.Compaction.FragmentOutputs
import Midge.Compaction.Resolution

/-!
# What executing a plan does

The outputs of a merge or of a repair are its inputs compacted, those of a
fragmentation are its inputs as they were (`Executed`). A repair of many files
goes through scratch runs; a pass over them drops nothing, so that whatever
number of passes it takes the last merge still sees everything.
-/

namespace Midge

open CompactionEvent KWayMerge List Exec SstContents

variable {factory : SstFactory} {dir : SstDirectory}

/-! ## Scratch runs -/

/-- The runs are open, with these contents. -/
abbrev OpenedRuns (dir : SstDirectory) : List RepairRun → List SstContents → Prop :=
  List.Forall₂ fun run sst => run.open dir = .ok sst

/-- Every run that can be opened is in key order. -/
def RunsSorted (dir : SstDirectory) (runs : List RepairRun) : Prop :=
  ∀ run ∈ runs, ∀ sst, run.open dir = .ok sst → sst.KeySorted

variable {files : List String}

theorem runsSorted_original (hkeys : dir.KeySorted files) :
    RunsSorted dir (files.map .original) := by
  intro run hrun
  obtain ⟨name, hname, rfl⟩ := mem_map.1 hrun
  exact hkeys name hname

/-- Two lists of SSTs hold the same, with multiplicity. -/
structure SameContents (ssts ssts' : List SstContents) : Prop where
  versions : (ssts.flatMap versions).Perm (ssts'.flatMap versions)
  tombstones : (ssts.flatMap tombstones).Perm (ssts'.flatMap tombstones)

theorem SameContents.refl (ssts : List SstContents) : SameContents ssts ssts := ⟨.refl _, .refl _⟩

theorem SameContents.trans {s₁ s₂ s₃ : List SstContents} (h : SameContents s₁ s₂)
    (h' : SameContents s₂ s₃) : SameContents s₁ s₃ :=
  ⟨h.versions.trans h'.versions, h.tombstones.trans h'.tombstones⟩

theorem SameContents.append {s₁ s₂ s₁' s₂' : List SstContents} (h : SameContents s₁ s₁')
    (h' : SameContents s₂ s₂') : SameContents (s₁ ++ s₂) (s₁' ++ s₂') := by
  constructor <;> simp only [flatMap_append]
  exacts [h.versions.append h'.versions, h.tombstones.append h'.tombstones]

/-- Writing the events of a merge one after the other writes all of them, in
    key order. -/
theorem of_returns_writeRepairEvents {byteLimit fuel seen seen' : ℕ} {merged : EventMergeIterator}
    {writer writer' : SstContents} {P : List CompactionEvent} (hs : merged.Sorted)
    (hfuel : merged.events.length ≤ fuel) (hP : EventsSorted P)
    (hle : ∀ e ∈ P, ∀ e' ∈ merged.events, e.key ≤ e'.key)
    (hwriter : writer = ⟨P.filterMap version?, P.filterMap rangeStart?⟩)
    (h : Returns (writeRepairEvents factory byteLimit fuel merged writer seen)
      (writer', seen')) :
    ∃ P' : List CompactionEvent, P'.Perm (P ++ merged.events) ∧
      EventsSorted P' ∧
      writer' = ⟨P'.filterMap version?, P'.filterMap rangeStart?⟩ := by
  induction fuel generalizing merged writer P seen with
  | zero =>
    cases returns_pure.1 h
    have hnil : merged.events = [] := length_eq_zero_iff.1 (Nat.le_zero.1 hfuel)
    exact ⟨P, by simp [hnil], hP, hwriter⟩
  | succ fuel ih =>
    obtain ⟨next, hnext, h⟩ := returns_bind h
    match next, hnext, h with
    | none, hnext, h =>
      cases returns_pure.1 h
      have hnil := EventMergeIterator.of_returns_nextEvent_none hnext
      exact ⟨P, by simp [hnil], hP, hwriter⟩
    | some (e, merged₁), hnext, h =>
      obtain ⟨writer₁, hw, h⟩ := returns_bind (returns_seq h)
      obtain ⟨hperm, hmin, hs₁⟩ := EventMergeIterator.of_returns_nextEvent hs hnext
      have hwriter₁ : writer₁ = ⟨(P ++ [e]).filterMap version?, (P ++ [e]).filterMap rangeStart?⟩ := by
        rw [filterMap_append, filterMap_append]
        match e, hw with
        | .version v, hw =>
          have hdelete : decide ((if v.isTombstone then EntryType.delete else .put) = .delete) =
              v.isTombstone := by
            cases v.isTombstone <;> rfl
          rw [returns_pure.1 (returns_seq hw :), hwriter, hdelete]
          simp [version?, rangeStart?]
        | .rangeStart t, hw =>
          rw [returns_pure.1 (returns_seq hw :), hwriter]
          simp [version?, rangeStart?]
        | .rangeEnd t, hw | .boundary k, hw =>
          rw [returns_pure.1 hw, hwriter]
          simp [version?, rangeStart?]
      obtain ⟨-, h⟩ := returns_ite_fail.1 h
      have hmem : ∀ e' ∈ e :: merged₁.events, e' ∈ merged.events := fun e' => hperm.mem_iff.2
      have hPe : EventsSorted (P ++ [e]) := by
        rw [EventsSorted, map_append, pairwise_append]
        refine ⟨hP, by simp, ?_⟩
        simp only [mem_map, map_cons, map_nil, mem_singleton, forall_eq,
          forall_exists_index, and_imp, forall_apply_eq_imp_iff₂]
        exact fun e' he' => hle e' he' e (hmem e mem_cons_self)
      have hlee : ∀ e₁ ∈ P ++ [e], ∀ e' ∈ merged₁.events, e₁.key ≤ e'.key := by
        intro e₁ he₁ e' he'
        have he' := hmem e' (mem_cons_of_mem _ he')
        rcases mem_append.1 he₁ with he₁ | he₁
        · exact hle e₁ he₁ e' he'
        · rw [mem_singleton.1 he₁]
          exact hmin e' he'
      have hlen := hperm.length_eq
      rw [length_cons] at hlen
      obtain ⟨P', hP', hsorted, hwriter'⟩ := ih hs₁ (by omega) hPe hlee hwriter₁ h
      refine ⟨P', hP'.trans ?_, hsorted, hwriter'⟩
      rw [append_assoc]
      exact (List.Perm.refl P).append hperm.symm

variable {runs : List RepairRun} {inputs : List CompactionEventCursor}

/-- The streams of the runs. -/
theorem of_returns_collectRepairInputs (h : Returns (collectRepairInputs dir runs) inputs) :
    ∃ ssts, OpenedRuns dir runs ssts ∧ inputs = ssts.map fun sst => (sstEvents sst).map .ok := by
  rw [collectRepairInputs] at h
  replace h := returns_seq h
  induction runs generalizing inputs with
  | nil =>
    rw [mapM_nil, returns_pure] at h
    exact ⟨[], .nil, h⟩
  | cons run runs ih =>
    rw [mapM_cons] at h
    obtain ⟨c, hc, h⟩ := returns_bind h
    obtain ⟨cs, hcs, h⟩ := returns_bind h
    obtain rfl := returns_pure.1 h
    obtain ⟨sst, hsst, hc⟩ := returns_ofExcept_bind (returns_seq hc)
    obtain rfl := returns_pure.1 hc
    obtain ⟨ssts, ho, rfl⟩ := ih hcs
    exact ⟨sst :: ssts, .cons hsst ho, rfl⟩

theorem flatMap_oks_sstEvents (ssts : List SstContents) :
    (ssts.map fun sst => (sstEvents sst).map (Except.ok : _ → MidgeResult CompactionEvent)).flatMap
      oks = ssts.flatMap sstEvents := by
  rw [flatMap_map]
  exact congrArg (ssts.flatMap ·) (funext fun sst => oks_map_ok _)

/-- The events of SSTs hold their versions and range tombstones. -/
theorem perm_flatMap_sstEvents (ssts : List SstContents) :
    ((ssts.flatMap sstEvents).filterMap version?).Perm (ssts.flatMap versions) ∧
      ((ssts.flatMap sstEvents).filterMap rangeStart?).Perm
        (ssts.flatMap tombstones) := by
  induction ssts with
  | nil => exact ⟨.refl _, .refl _⟩
  | cons sst ssts ih =>
    simp only [flatMap_cons, filterMap_append, filterMap_version?_sstEvents]
    exact ⟨(List.Perm.refl _).append ih.1, (filterMap_rangeStart?_sstEvents sst).append ih.2⟩

theorem keySorted_of_opened {ssts : List SstContents} (hruns : RunsSorted dir runs)
    (ho : OpenedRuns dir runs ssts) : ∀ sst ∈ ssts, sst.KeySorted := by
  induction ho with
  | nil => simp
  | cons hd _ ih =>
    refine forall_mem_cons.2 ⟨hruns _ mem_cons_self _ hd, ih fun run hrun => ?_⟩
    exact hruns run (mem_cons_of_mem _ hrun)

/-- A run holds everything that the runs of its batch do. -/
theorem of_returns_mergeRepairInputsToRun {batch : List RepairRun} {byteLimit : ℕ}
    {contents : SstContents} (hruns : RunsSorted dir batch)
    (h : Returns (mergeRepairInputsToRun factory dir batch byteLimit) contents) :
    contents.KeySorted ∧
      ∃ ssts, OpenedRuns dir batch ssts ∧ SameContents [contents] ssts := by
  obtain ⟨inputs, hinputs, h⟩ := returns_bind h
  obtain ⟨merged, hmerged, h⟩ := returns_bind (returns_seq h)
  obtain ⟨⟨writer, seen⟩, hwrite, h⟩ := returns_bind (returns_seq h)
  obtain ⟨-, h⟩ := returns_ite_fail.1 h
  obtain rfl := returns_pure.1 (returns_seq h :)
  obtain ⟨ssts, ho, rfl⟩ := of_returns_collectRepairInputs hinputs
  have hsorted := keySorted_of_opened hruns ho
  obtain ⟨hevents, hs, -⟩ := EventMergeIterator.of_returns_new hmerged <| by
    intro c hc
    obtain ⟨sst, hsst, rfl⟩ := mem_map.1 hc
    exact (wellFormedStream_sstEvents (hsorted sst hsst)).sorted
  obtain ⟨P, hP, hPs, rfl⟩ := of_returns_writeRepairEvents (P := []) hs le_rfl .nil (by simp)
    rfl hwrite
  rw [nil_append, hevents, flatMap_oks_sstEvents] at hP
  obtain ⟨hv, ht⟩ := perm_flatMap_sstEvents ssts
  refine ⟨?_, ssts, ho, ?_, ?_⟩
  · rw [KeySorted, pairwise_map]
    rw [EventsSorted, pairwise_map] at hPs
    refine hPs.filterMap _ fun e e' hle v hv v' hv' => ?_
    rw [version?_eq_some] at hv hv'
    subst hv hv'
    exact hle
  · simpa using (hP.filterMap version?).trans hv
  · simpa using (hP.filterMap rangeStart?).trans ht

/-- The runs after a step hold what those before did. -/
structure RunsPreserved (dir : SstDirectory) (runs runs' : List RepairRun) : Prop where
  sorted : RunsSorted dir runs'
  contents : ∀ ssts', OpenedRuns dir runs' ssts' →
    ∃ ssts, OpenedRuns dir runs ssts ∧ SameContents ssts' ssts

theorem RunsPreserved.refl (h : RunsSorted dir runs) :
    RunsPreserved dir runs runs := ⟨h, fun ssts ho => ⟨ssts, ho, .refl _⟩⟩

theorem forall₂_of_append {α β : Type*} {R : α → β → Prop} {l₁ l₂ : List α} {m : List β}
    (h : List.Forall₂ R (l₁ ++ l₂) m) :
    ∃ m₁ m₂, List.Forall₂ R l₁ m₁ ∧ List.Forall₂ R l₂ m₂ ∧ m = m₁ ++ m₂ := by
  induction l₁ generalizing m with
  | nil => exact ⟨[], m, .nil, h, rfl⟩
  | cons a l₁ ih =>
    cases h with
    | cons ha h =>
      obtain ⟨m₁, m₂, h₁, h₂, rfl⟩ := ih h
      exact ⟨_ :: m₁, m₂, .cons ha h₁, h₂, rfl⟩

theorem RunsPreserved.append {runs₁ runs₂ runs₁' runs₂' : List RepairRun}
    (h₁ : RunsPreserved dir runs₁ runs₁') (h₂ : RunsPreserved dir runs₂ runs₂') :
    RunsPreserved dir (runs₁ ++ runs₂) (runs₁' ++ runs₂') where
  sorted run hrun := by
    rcases mem_append.1 hrun with hrun | hrun
    exacts [h₁.sorted run hrun, h₂.sorted run hrun]
  contents ssts' ho := by
    obtain ⟨ssts₁', ssts₂', ho₁', ho₂', rfl⟩ := forall₂_of_append ho
    obtain ⟨ssts₁, ho₁, hs₁⟩ := h₁.contents ssts₁' ho₁'
    obtain ⟨ssts₂, ho₂, hs₂⟩ := h₂.contents ssts₂' ho₂'
    exact ⟨ssts₁ ++ ssts₂, rel_append ho₁ ho₂, hs₁.append hs₂⟩

theorem RunsPreserved.trans {runs₁ runs₂ runs₃ : List RepairRun}
    (h : RunsPreserved dir runs₁ runs₂) (h' : RunsPreserved dir runs₂ runs₃) :
    RunsPreserved dir runs₁ runs₃ where
  sorted := h'.sorted
  contents ssts₃ ho := by
    obtain ⟨ssts₂, ho₂, hs₂⟩ := h'.contents ssts₃ ho
    obtain ⟨ssts₁, ho₁, hs₁⟩ := h.contents ssts₂ ho₂
    exact ⟨ssts₁, ho₁, hs₂.trans hs₁⟩

variable {scratch : RepairScratch}

namespace RepairScratch

/-- Merging a batch keeps what its runs hold. -/
theorem of_returns_mergeBatch {scratch' : RepairScratch} {batch : List RepairRun}
    (hb : RunsSorted dir batch)
    (h : Returns (scratch.mergeBatch factory dir batch) (runs, scratch')) :
    RunsPreserved dir batch runs := by
  replace h := returns_seq h
  split at h
  · cases returns_pure.1 h
    exact .refl hb
  · obtain ⟨contents, hc, h⟩ := returns_bind h
    obtain ⟨-, h⟩ := returns_ite_fail.1 h
    cases returns_pure.1 (returns_seq h :)
    obtain ⟨hsorted, ssts, ho, hsame⟩ := of_returns_mergeRepairInputsToRun hb hc
    refine ⟨fun run hrun sst hsst => ?_, fun ssts' ho' => ⟨ssts, ho, ?_⟩⟩
    · rw [mem_singleton.1 hrun] at hsst
      cases hsst
      exact hsorted
    · cases ho' with
      | cons hopen hnil =>
        cases hopen
        cases hnil
        exact hsame

/-- A pass keeps what the runs of all its batches hold. -/
theorem of_returns_mergePass {scratch' : RepairScratch} {batches : List (List RepairRun)}
    (hb : RunsSorted dir batches.flatten)
    (h : Returns (mergePass factory dir scratch batches) (runs, scratch')) :
    RunsPreserved dir batches.flatten runs := by
  induction batches generalizing scratch runs with
  | nil =>
    cases returns_pure.1 h
    exact .refl hb
  | cons batch batches ih =>
    obtain ⟨⟨runs₁, scratch₁⟩, h₁, h⟩ := returns_bind h
    obtain ⟨⟨runs₂, scratch₂⟩, h₂, h⟩ := returns_bind h
    cases returns_pure.1 h
    rw [flatten_cons] at hb ⊢
    exact (of_returns_mergeBatch (fun run hrun => hb run (mem_append_left _ hrun)) h₁).append
      (ih (fun run hrun => hb run (mem_append_right _ hrun)) h₂)

theorem flatten_chunks {α : Type} {n fuel : ℕ} {l : List α} (hn : 0 < n) (hfuel : l.length ≤ fuel) :
    (chunks n fuel l).flatten = l := by
  induction fuel generalizing l with
  | zero => simp [chunks, length_eq_zero_iff.1 (Nat.le_zero.1 hfuel)]
  | succ fuel ih =>
    cases l with
    | nil => rfl
    | cons a l =>
      rw [length_cons] at hfuel
      rw [chunks, flatten_cons, ih (by rw [length_drop, length_cons]; omega),
        take_append_drop]
      exact cons_ne_nil _ _

/-- Any number of passes keeps what the runs hold. -/
theorem of_returns_mergePasses {fanIn fuel : ℕ} {runs' : List RepairRun} (hfan : 0 < fanIn)
    (hr : RunsSorted dir runs)
    (h : Returns (mergePasses factory dir fanIn fuel scratch runs) runs') :
    RunsPreserved dir runs runs' := by
  induction fuel generalizing scratch runs with
  | zero =>
    obtain rfl := returns_pure.1 h
    exact .refl hr
  | succ fuel ih =>
    rw [mergePasses, returns_ite] at h
    rcases h with ⟨-, h⟩ | ⟨-, h⟩
    · obtain ⟨⟨runs₁, scratch₁⟩, h₁, h⟩ := returns_bind h
      have hflat := flatten_chunks hfan (le_refl runs.length)
      have hpass := of_returns_mergePass (by rwa [hflat]) h₁
      rw [hflat] at hpass
      exact hpass.trans (ih hpass.sorted h)
    · obtain rfl := returns_pure.1 h
      exact .refl hr

/-- Merging the files into runs keeps what they hold. -/
theorem of_returns_mergeRuns {fanIn : ℕ}
    (hkeys : dir.KeySorted files)
    (h : Returns (scratch.mergeRuns factory dir files fanIn) runs) :
    RunsPreserved dir (files.map .original) runs := by
  rw [mergeRuns] at h
  obtain ⟨hfan, h⟩ := returns_ite_fail.1 h
  exact of_returns_mergePasses (by omega) (runsSorted_original hkeys) h

end RepairScratch

/-! ## Plans -/

/-- Nothing was dropped or added. -/
structure Preserved (i o : SstContents) : Prop where
  versions : o.versions.Perm i.versions
  covers : ∀ k c, (∃ t ∈ o.tombstones, t.Covers k ∧ t.seq = c) ↔
    ∃ t ∈ i.tombstones, t.Covers k ∧ t.seq = c

/-- What a plan may collect. -/
def CompactionPlan.tombstoneGc (plan : CompactionPlan) : TombstoneGcPolicy :=
  ⟨plan.snapshotHorizon, plan.pointTombstoneGcEligible, plan.rangeTombstoneGcEligible⟩

/-- The plan was executed, with these outputs. -/
structure Executed (dir : SstDirectory) (plan : CompactionPlan) (ssts : List SstContents)
    (outputs : List FinishedPartition) : Prop where
  opened : Opened dir (plan.sourceFiles ++ plan.targetFiles) ssts
  contents : match plan.purpose with
    | .fragment _ => Preserved (.concat ssts) (outputContents outputs)
    | _ => Compacted plan.tombstoneGc (.concat ssts) (outputContents outputs)
  ordered : OutputsOrdered outputs
  sorted : ∀ o ∈ outputs, o.contents.KeySorted

theorem Compacted.congr {gc : TombstoneGcPolicy} {i i' o : SstContents} (h : Compacted gc i o)
    (hv : ∀ v, v ∈ i.versions ↔ v ∈ i'.versions) (ht : ∀ t, t ∈ i.tombstones ↔ t ∈ i'.tombstones) :
    Compacted gc i' o where
  selected v := by
    rw [h.selected]
    simp only [hv, ht]
  covers k c := by
    rw [h.covers]
    simp only [ht]
  unique v hvi w hwi := h.unique v ((hv v).2 hvi) w ((hv w).2 hwi)

theorem mem_dedup_iff {a : String} : ∀ {l : List String}, a ∈ dedup l ↔ a ∈ l
  | [] => .rfl
  | [b] => .rfl
  | b :: b' :: l => by
    rw [dedup]
    split_ifs with h
    · simp only [mem_dedup_iff, mem_cons, h]
      tauto
    · simp only [mem_cons, mem_dedup_iff]

theorem mem_combinedInputFiles {a : String} {sourceFiles targetFiles : List String} :
    a ∈ combinedInputFiles sourceFiles targetFiles ↔ a ∈ sourceFiles ++ targetFiles := by
  rw [combinedInputFiles, dedupeSort, mem_dedup_iff, mem_insertionSort]

variable {plan : CompactionPlan}

/-- Merging streams that hold the same as the SSTs compacts them. -/
theorem executed_of_streams {resources : CompactionResources} {outputs : List FinishedPartition}
    {ssts ssts' : List SstContents} (hpurpose : ∀ splitKey, plan.purpose ≠ .fragment splitKey)
    (ho : Opened dir (plan.sourceFiles ++ plan.targetFiles) ssts)
    (hsorted : ∀ c ∈ inputs, EventsSorted (oks c))
    (hevents : inputs.flatMap oks = ssts'.flatMap sstEvents) (hsame : SameContents ssts' ssts)
    (h : Returns (writePartitionedCompactionOutputs factory inputs
      (plan.outputConfig resources)) outputs) : Executed dir plan ssts outputs := by
  have hends : ∀ t, rangeStart t ∈ inputs.flatMap oks → rangeEnd t ∈ inputs.flatMap oks := by
    simp [hevents, mem_flatMap]
  obtain ⟨hcompacted, hordered, hkeys⟩ := compacted_of_returns hsorted hends h
  obtain ⟨hv, ht⟩ := perm_flatMap_sstEvents ssts'
  have hcompacted : Compacted plan.tombstoneGc (.concat ssts) (outputContents outputs) := by
    refine hcompacted.congr (fun v => ?_) fun t => ?_
    · rw [streamContents, hevents]
      exact (hv.trans hsame.versions).mem_iff
    · rw [streamContents, hevents]
      exact (ht.trans hsame.tombstones).mem_iff
  refine ⟨ho, ?_, hordered, hkeys⟩
  cases hp : plan.purpose with
  | merge | repair => exact hcompacted
  | fragment splitKey => exact absurd hp (hpurpose splitKey)

/-- The streams of a repair hold what its files do. -/
theorem of_returns_repairInputs {resources : CompactionResources}
    (hkeys : dir.KeySorted plan.sourceFiles)
    (h : Returns (repairInputs factory dir plan resources) inputs) :
    ∃ ssts ssts', Opened dir plan.sourceFiles ssts ∧ SameContents ssts' ssts ∧
      (∀ sst ∈ ssts', sst.KeySorted) ∧ inputs = ssts'.map fun sst => (sstEvents sst).map .ok := by
  obtain ⟨runs, hruns, h⟩ := returns_bind h
  obtain ⟨ssts', ho', rfl⟩ := of_returns_collectRepairInputs h
  have hpreserved : RunsPreserved dir (plan.sourceFiles.map .original) runs := by
    rw [returns_ite] at hruns
    rcases hruns with ⟨-, hruns⟩ | ⟨-, hruns⟩
    · obtain ⟨scratch, -, hruns⟩ := returns_bind (returns_seq hruns)
      exact RepairScratch.of_returns_mergeRuns hkeys hruns
    · rw [returns_pure.1 hruns]
      exact .refl (runsSorted_original hkeys)
  obtain ⟨ssts, ho, hsame⟩ := hpreserved.contents ssts' ho'
  exact ⟨ssts, ssts', forall₂_map_left_iff.1 ho, hsame,
    keySorted_of_opened hpreserved.sorted ho', rfl⟩

/-- Fragments hold what the files do. -/
theorem preserved_of_fragments {level : ℕ} {sameLevelRepair : Bool} {identity : PartitionIdentity}
    {splitKey : Key} {targetSstSize : ℕ} {limit : Option ℕ} {outputs : List FinishedPartition}
    (hkeys : dir.KeySorted files)
    (hinputs : Returns (collectCompactionStreamInputs dir files [] level sameLevelRepair)
      inputs)
    (h : Returns (writeFragmentedCompactionOutputs factory inputs identity splitKey
      targetSstSize limit) outputs) :
    ∃ ssts, Opened dir files ssts ∧ Preserved (.concat ssts) (outputContents outputs) ∧
      OutputsOrdered outputs ∧ ∀ o ∈ outputs, o.contents.KeySorted := by
  have hstreams := of_returns_collectCompactionStreamInputs hkeys hinputs
  rw [append_nil] at hstreams
  obtain ⟨⟨W, hout, hW⟩, hclean⟩ := fragments_of_returns rfl hstreams.sorted h
  obtain ⟨ssts, ho, hevents⟩ := hstreams.events hclean
  obtain ⟨hv, ht⟩ := perm_flatMap_sstEvents ssts
  refine ⟨ssts, ho, ⟨?_, fun k c => ?_⟩, hout.ordered, hout.sorted⟩
  · rw [versions_outputContents, hout.versions]
    rw [hevents] at hW
    exact hW.trans hv
  · have hcover := hout.covers k c
    simp only [OutputCover, LiveCover, hevents, rangeTombstoneIsObsolete, retainAll,
      Bool.false_and, true_and, mem_flatMap, rangeStart_mem_sstEvents] at hcover
    simp only [mem_outputContents_tombstones, SstContents.concat, mem_flatMap]
    refine Iff.trans ?_ (hcover.trans ?_)
    · constructor
      · rintro ⟨t, ⟨o, ho, hto⟩, h⟩
        exact ⟨o, ho, t, hto, h⟩
      · rintro ⟨o, ho, t, hto, h⟩
        exact ⟨t, ⟨o, ho, hto⟩, h⟩
    · rfl

/-- A repair or a fragmentation has no target files. -/
theorem targetFiles_eq_nil (h : validateCompactionPurpose plan = .ok ())
    (hp : plan.purpose ≠ .merge) : plan.targetFiles = [] := by
  simp only [validateCompactionPurpose] at h
  split_ifs at h with hv
  cases hpurpose : plan.purpose with
  | merge => exact absurd hpurpose hp
  | repair | fragment =>
    simp only [hpurpose, Bool.and_eq_true, List.isEmpty_iff] at hv
    tauto

/-- What executing a plan does, whatever its purpose. -/
theorem executed_of_returns {plan : CompactionPlan} {resources : CompactionResources}
    {outputs : List FinishedPartition}
    (hsources : dir.KeySorted plan.sourceFiles)
    (h : Returns (executeCompactionAtTarget factory dir plan resources) outputs) :
    plan.inputFiles = combinedInputFiles plan.sourceFiles plan.targetFiles ∧
      validateCompactionPurpose plan = .ok () ∧ ∃ ssts, Executed dir plan ssts outputs := by
  rw [executeCompactionAtTarget] at h
  obtain ⟨hinputs, h⟩ := returns_ite_fail.1 h
  rw [not_not] at hinputs
  obtain ⟨⟨⟩, hvalid, h⟩ := returns_ofExcept_bind h
  refine ⟨hinputs, hvalid, ?_⟩
  rw [returns_ite] at h
  rcases h with ⟨hnil, h⟩ | ⟨-, h⟩
  · obtain rfl := returns_pure.1 h
    have hfiles : plan.sourceFiles ++ plan.targetFiles = [] := by
      refine eq_nil_iff_forall_not_mem.2 fun name hname => ?_
      rw [← mem_combinedInputFiles, ← hinputs, hnil] at hname
      exact not_mem_nil hname
    have hcompacted : Compacted plan.tombstoneGc (.concat []) (outputContents []) := by
      constructor <;> simp [outputContents, SstContents.concat]
    refine ⟨[], hfiles ▸ .nil, ?_, .nil, by simp⟩
    split
    · exact ⟨.refl _, fun k c => .rfl⟩
    · exact hcompacted
  cases hp : plan.purpose with
  | fragment splitKey =>
    simp only [hp] at h
    obtain ⟨inputs, hcollect, h⟩ := returns_bind h
    have htarget := targetFiles_eq_nil hvalid (by simp [hp])
    obtain ⟨ssts, ho, hpreserved, hordered, hkeys⟩ := preserved_of_fragments hsources hcollect h
    refine ⟨ssts, by rwa [htarget, append_nil], ?_, hordered, hkeys⟩
    simpa only [hp] using hpreserved
  | repair =>
    simp only [hp] at h
    obtain ⟨inputs, hrepair, h⟩ := returns_bind h
    obtain ⟨ssts, ssts', ho, hsame, hsorted, rfl⟩ := of_returns_repairInputs hsources hrepair
    have htarget := targetFiles_eq_nil hvalid (by simp [hp])
    refine ⟨ssts, executed_of_streams (by simp [hp]) (by rwa [htarget, append_nil])
      (fun c hc => ?_) (flatMap_oks_sstEvents ssts') hsame h⟩
    obtain ⟨sst, hsst, rfl⟩ := mem_map.1 hc
    exact (wellFormedStream_sstEvents (hsorted sst hsst)).sorted
  | merge =>
    simp only [hp] at h
    obtain ⟨inputs, hcollect, h⟩ := returns_bind h
    have hstreams := of_returns_collectCompactionStreamInputs hsources hcollect
    obtain ⟨ssts, ho, hevents⟩ := hstreams.events (clean_of_returns hstreams.sorted h)
    exact ⟨ssts, executed_of_streams (by simp [hp]) ho hstreams.sorted hevents (.refl _) h⟩

end Midge
