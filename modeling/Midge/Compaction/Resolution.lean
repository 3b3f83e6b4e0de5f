import Midge.Resolve
import Midge.Compaction.Streams
import Midge.Compaction.MergeOutputs

/-!
# Compaction preserves every read of the latest state

Reading the outputs of a compaction together with any other data finds what
reading the inputs together with it finds, at every sequence from which all the
inputs are visible. When tombstone garbage collection is on, the other data
must not hold anything as old as the inputs in their hull: this is what the
planner proves before it allows it.

The outputs hold the newest version of every key but for those collected, and
the live ranges (`outputs_of_returns`); what is collected is never seen, by the
case analysis of `resolve_outputs_eq`.
-/

namespace Midge

open CompactionEvent SstContents List KWayMerge

/-- What the outputs of a compaction hold. -/
def outputContents (outputs : List FinishedPartition) : SstContents :=
  .concat (outputs.map FinishedPartition.contents)

theorem versions_outputContents (outputs : List FinishedPartition) :
    (outputContents outputs).versions = outputs.flatMap fun o => o.contents.versions := by
  simp [outputContents, SstContents.concat, flatMap_map]

theorem mem_outputContents_tombstones {outputs : List FinishedPartition} {t : RangeTombstone} :
    t ∈ (outputContents outputs).tombstones ↔ ∃ o ∈ outputs, t ∈ o.contents.tombstones := by
  simp [outputContents, SstContents.concat]

/-! ## What is collected -/

/-- `o` is `i` compacted: the newest version of every key but for the collected
    ones, and the sequences of the ranges that are not collected. -/
structure Compacted (gc : TombstoneGcPolicy) (i o : SstContents) : Prop where
  selected : ∀ v, v ∈ o.versions ↔
    v ∈ i.versions ∧ (∀ w ∈ i.versions, w.key = v.key → w.seq ≤ v.seq) ∧
      (∀ t ∈ i.tombstones, rangeTombstoneIsObsolete t gc → t.Covers v.key → t.seq < v.seq) ∧
      ¬ (gc.pointEligible ∧ v.isTombstone ∧ tombstoneIsObsolete v.seq gc.snapshotHorizon)
  covers : ∀ k c, (∃ t ∈ o.tombstones, t.Covers k ∧ t.seq = c) ↔
    ∃ t ∈ i.tombstones, rangeTombstoneIsObsolete t gc = false ∧ t.Covers k ∧ t.seq = c
  unique : ∀ v ∈ i.versions, ∀ w ∈ i.versions, v.key = w.key → v.seq = w.seq → v = w

/-- The events `E` of a merge are those of the inputs and boundaries. -/
structure MergedEvents (inputs : List CompactionEventCursor) (E : List CompactionEvent) : Prop where
  versions : ∀ v, version v ∈ E ↔ v ∈ (streamContents inputs).versions
  ranges : ∀ t, rangeStart t ∈ E ↔ t ∈ (streamContents inputs).tombstones
  ends : ∀ t, rangeStart t ∈ E → rangeEnd t ∈ E

/-- The boundaries that the next level adds are neither versions nor ranges. -/
theorem mergedEvents_of_eq {inputs : List CompactionEventCursor} {policy : GrandparentOverlap}
    {E : List CompactionEvent}
    (hE : E = (inputs ++ policy.boundaryCursor.toList).flatMap oks)
    (hends : ∀ t, rangeStart t ∈ inputs.flatMap oks →
      rangeEnd t ∈ inputs.flatMap oks) : MergedEvents inputs E := by
  have hmem : ∀ e, (∀ key, e ≠ .boundary key) → (e ∈ E ↔ e ∈ inputs.flatMap oks) := by
    intro e he
    rw [hE, flatMap_append, mem_append, or_iff_left]
    intro hb
    obtain ⟨c, hc, hec⟩ := mem_flatMap.1 hb
    obtain ⟨key, rfl⟩ :=
      (GrandparentOverlap.of_boundaryCursor (Option.mem_toList.1 hc)).2 e hec
    exact he key rfl
  refine ⟨fun v => ?_, fun t => ?_, fun t h => ?_⟩
  · simp [hmem (version v) (by simp), streamContents]
  · simp [hmem (rangeStart t) (by simp), streamContents]
  · exact (hmem _ (by simp)).2 (hends t ((hmem _ (by simp)).1 h))

/-- The outputs are the inputs compacted. -/
theorem compacted_of_returns {factory : SstFactory} {inputs : List CompactionEventCursor}
    {config : PartitionOutputConfig} {outputs : List FinishedPartition}
    (hsorted : ∀ c ∈ inputs, EventsSorted (oks c))
    (hends : ∀ t, rangeStart t ∈ inputs.flatMap oks →
      rangeEnd t ∈ inputs.flatMap oks)
    (h : Exec.Returns (writePartitionedCompactionOutputs factory inputs config) outputs) :
    Compacted config.tombstoneGc (streamContents inputs) (outputContents outputs) ∧
      OutputsOrdered outputs ∧ ∀ o ∈ outputs, o.contents.KeySorted := by
  obtain ⟨E, hE⟩ : ∃ E,
      E = (inputs ++ config.grandparentOverlap.boundaryCursor.toList).flatMap oks :=
    ⟨_, rfl⟩
  obtain ⟨hv, ht, hendsE⟩ := mergedEvents_of_eq hE hends
  obtain ⟨W, hout, hW⟩ := outputs_of_returns hE hsorted hendsE h
  refine ⟨⟨fun v => ?_, fun k c => ?_,
    fun v hvi w hwi => hout.unique v w ((hv v).2 hvi) ((hv w).2 hwi)⟩, hout.ordered, hout.sorted⟩
  · rw [versions_outputContents, hout.versions, hW]
    constructor
    · intro hs
      exact ⟨(hv v).1 hs.mem, fun w hw => hs.newest w ((hv w).2 hw),
        fun t h => hs.uncovered t ((ht t).2 h), hs.point⟩
    · rintro ⟨h₁, h₂, h₃, h₄⟩
      exact ⟨(hv v).2 h₁, fun w hw => h₂ w ((hv w).1 hw), fun t h => h₃ t ((ht t).1 h), h₄⟩
  · refine Iff.trans ?_ ((hout.covers k c).trans ?_)
    · simp only [mem_outputContents_tombstones, OutputCover]
      constructor
      · rintro ⟨t, ⟨o, ho, hto⟩, h⟩
        exact ⟨o, ho, t, hto, h⟩
      · rintro ⟨o, ho, t, hto, h⟩
        exact ⟨t, ⟨o, ho, hto⟩, h⟩
    · simp only [LiveCover, ht]

namespace Compacted

variable {gc : TombstoneGcPolicy} {i o u : SstContents} {k : Key} {q : ℕ}

/-- A version is hidden alike, if no collected range would hide it. -/
theorem hides_iff (h : Compacted gc i o) {seq : ℕ}
    (hseq : ∀ t ∈ i.tombstones, rangeTombstoneIsObsolete t gc → t.Covers k → t.seq < seq) :
    (o ++ u).Hides k q seq ↔ (i ++ u).Hides k q seq := by
  have hio : (∃ t ∈ o.tombstones, t.Covers k ∧ t.seq ≤ q ∧ seq ≤ t.seq) ↔
      ∃ t ∈ i.tombstones, t.Covers k ∧ t.seq ≤ q ∧ seq ≤ t.seq := by
    constructor
    · rintro ⟨t, ht, hc, hq, hle⟩
      obtain ⟨t', ht', -, hc', heq⟩ := (h.covers k t.seq).1 ⟨t, ht, hc, rfl⟩
      exact ⟨t', ht', hc', heq ▸ hq, heq ▸ hle⟩
    · rintro ⟨t, ht, hc, hq, hle⟩
      cases hobs : rangeTombstoneIsObsolete t gc with
      | true => exact absurd (hseq t ht hobs hc) (not_lt.2 hle)
      | false =>
        obtain ⟨t', ht', hc', heq⟩ := (h.covers k t.seq).2 ⟨t, ht, hobs, hc, rfl⟩
        exact ⟨t', ht', hc', heq ▸ hq, heq ▸ hle⟩
  simp only [Hides, tombstones_append, mem_append, or_and_right, exists_or, hio]

/-- Without versions of the key in the inputs, there are none in the outputs. -/
theorem versionsAt_eq_nil (h : Compacted gc i o) (hi : i.versionsAt k q = []) :
    o.versionsAt k q = [] := by
  rw [eq_nil_iff_forall_not_mem] at hi ⊢
  intro v hv
  obtain ⟨hv, hk⟩ := mem_versionsAt.1 hv
  exact hi v (mem_versionsAt.2 ⟨((h.selected v).1 hv).1, hk⟩)

theorem resolve_congr {d d' : SstContents} (hn : d.newestAt k q = d'.newestAt k q)
    (hh : ∀ v ∈ d'.newestAt k q, d.Hides k q v.seq ↔ d'.Hides k q v.seq) :
    d.resolve k q = d'.resolve k q := by
  simp only [resolve, hn]
  cases hv : d'.newestAt k q with
  | none => rfl
  | some v => simp only [hh v hv]

/-- Reading a compaction's outputs with other data finds what reading its
    inputs does. -/
theorem resolve_eq (h : Compacted gc i o) (hq : ∀ s ∈ i.sequences, s ≤ q)
    (hu : gc.pointEligible ∨ gc.rangeEligible → i.NewerInHull u) :
    (o ++ u).resolve k q = (i ++ u).resolve k q := by
  have hobsolete : ∀ t, rangeTombstoneIsObsolete t gc → gc.rangeEligible := fun t ht => by
    rw [rangeTombstoneIsObsolete, Bool.and_eq_true] at ht
    exact ht.1
  -- Versions of the other data are newer than a collected range over them.
  have hother : ∀ v ∈ u.versionsAt k q, ∀ t ∈ i.tombstones, rangeTombstoneIsObsolete t gc →
      t.Covers k → t.seq < v.seq := by
    intro v hv t ht hobs hc
    obtain ⟨hv, hk, -⟩ := mem_versionsAt.1 hv
    exact (hu (.inr (hobsolete t hobs))).versions v hv (hk ▸ inHull_covers ht hc) _
      (seq_mem_of_tombstone ht)
  cases hi : (i.versionsAt k q).argmax RawSstVersion.seq with
  | none =>
    -- The inputs have no version of the key.
    have hi := argmax_eq_none.1 hi
    have ho := h.versionsAt_eq_nil hi
    refine resolve_congr (by rw [newestAt, newestAt, versionsAt_append, versionsAt_append, hi, ho])
      fun v hv => h.hides_iff (hother v ?_)
    rw [Option.mem_def, newestAt, versionsAt_append, hi] at hv
    exact argmax_mem hv
  | some v =>
    have hmem := argmax_mem hi
    obtain ⟨hvi, hvk, -⟩ := mem_versionsAt.1 hmem
    have hmax : ∀ w ∈ i.versions, w.key = v.key → w.seq ≤ v.seq := fun w hw hwk =>
      le_of_mem_argmax (mem_versionsAt.2 ⟨hw, hwk.trans hvk, hq _ (seq_mem_of_version hw)⟩) hi
    by_cases hsel : v ∈ o.versions
    · -- The newest version of the inputs is the one of the outputs.
      have ho : (o.versionsAt k q).argmax RawSstVersion.seq = some v := by
        refine argmax_eq_some_of_unique
          (mem_versionsAt.2 ⟨hsel, hvk, hq _ (seq_mem_of_version hvi)⟩) (fun w hw => ?_)
          fun w hw hwv => ?_
        all_goals
          obtain ⟨hwo, hwk, -⟩ := mem_versionsAt.1 hw
          have hwi := ((h.selected w).1 hwo).1
        · exact hmax w hwi (hwk.trans hvk.symm)
        · exact h.unique w hwi v hvi (hwk.trans hvk.symm) hwv
      refine resolve_congr ?_ fun w hw => h.hides_iff fun t ht hobs hc => ?_
      · rw [newestAt, newestAt, versionsAt_append, versionsAt_append]
        exact argmax_append_congr (ho.trans hi.symm) _
      · rw [Option.mem_def, newestAt, versionsAt_append] at hw
        exact (((h.selected v).1 hsel).2.2.1 t ht hobs (hvk ▸ hc)).trans_le
          (le_of_mem_argmax (mem_append_left _ hmem) hw)
    · -- The newest version of the inputs was collected.
      have ho : o.versionsAt k q = [] := by
        rw [eq_nil_iff_forall_not_mem]
        intro w hw
        obtain ⟨hwo, hwk, -⟩ := mem_versionsAt.1 hw
        obtain ⟨hwi, hwmax, -⟩ := (h.selected w).1 hwo
        have heq : w.seq = v.seq :=
          le_antisymm (hmax w hwi (hwk.trans hvk.symm)) (hwmax v hvi (hvk.trans hwk.symm))
        exact hsel (h.unique w hwi v hvi (hwk.trans hvk.symm) heq ▸ hwo)
      have hcollected : (∃ t ∈ i.tombstones, rangeTombstoneIsObsolete t gc ∧ t.Covers v.key ∧
          v.seq ≤ t.seq) ∨ (gc.pointEligible ∧ v.isTombstone) := by
        by_contra hno
        push Not at hno
        exact hsel ((h.selected v).2 ⟨hvi, hmax, hno.1, fun hp => hno.2 hp.1 hp.2.1⟩)
      have hnewer : i.NewerInHull u := hu <| by
        rcases hcollected with ⟨t, -, hobs, -⟩ | ⟨hp, -⟩
        exacts [.inr (hobsolete t hobs), .inl hp]
      rcases eq_or_ne (u.versionsAt k q) [] with hnil | hne
      · -- Nothing else is visible: neither read finds the key.
        have hnone : (o ++ u).resolve k q = none := by
          simp [resolve, newestAt, versionsAt_append, ho, hnil]
        have hnewest : (i ++ u).newestAt k q = some v := by
          rw [newestAt, versionsAt_append, hnil, append_nil, hi]
        rw [hnone, resolve, hnewest]
        refine (if_pos ?_).symm
        rcases hcollected with ⟨t, ht, -, hc, hle⟩ | ⟨-, htomb⟩
        · exact .inr ⟨t, mem_append_left _ ht, hvk ▸ hc, hq _ (seq_mem_of_tombstone ht), hle⟩
        · exact .inl htomb
      · -- Both reads find the newest version of the other data.
        have hlt : ∀ a ∈ i.versionsAt k q, ∀ b ∈ u.versionsAt k q, a.seq < b.seq := by
          intro a ha b hb
          obtain ⟨ha, -⟩ := mem_versionsAt.1 ha
          obtain ⟨hb, hbk, -⟩ := mem_versionsAt.1 hb
          exact hnewer.versions b hb (hbk.trans hvk.symm ▸ inHull_key hvi) _ (seq_mem_of_version ha)
        have hnewest : (i ++ u).newestAt k q = u.newestAt k q := by
          rw [newestAt, versionsAt_append, argmax_append_of_lt hne hlt, newestAt]
        refine resolve_congr ?_ fun w hw => h.hides_iff (hother w ?_)
        · rw [hnewest, newestAt, versionsAt_append, ho, nil_append, newestAt]
        · rw [Option.mem_def, hnewest] at hw
          exact argmax_mem hw

end Compacted

/-- Resolving any key, at any sequence from which all the inputs are visible,
    over the outputs together with unselected data finds what it finds over the
    inputs together with it. The unselected data is arbitrary, unless garbage
    collection is on: then what it holds in the hull of the inputs must be
    newer than all of them. -/
theorem writePartitionedCompactionOutputs_resolve (factory : SstFactory)
    (inputs : List CompactionEventCursor) (config : PartitionOutputConfig)
    (env env' : Env MidgeError) (outputs : List FinishedPartition)
    (hin : ∀ c ∈ inputs, WellFormedStream c)
    (h : writePartitionedCompactionOutputs factory inputs config env = .ok (outputs, env'))
    (unselected : SstContents)
    (hunselected : config.tombstoneGc.pointEligible ∨ config.tombstoneGc.rangeEligible →
      (streamContents inputs).NewerInHull unselected)
    (k : Key) (q : ℕ) (hq : ∀ s ∈ (streamContents inputs).sequences, s ≤ q) :
    (outputContents outputs ++ unselected).resolve k q =
      (streamContents inputs ++ unselected).resolve k q :=
  (compacted_of_returns (fun c hc => (hin c hc).sorted) (ends_of_wellFormed hin)
    (.intro h)).1.resolve_eq hq hunselected

/-! A run that rolls once, and collects a version under a range, the range
itself and a point tombstone. -/

/-- A writer whose size is the number of its entries. -/
def countingFactory : SstFactory where
  estimatedSizeBytes writer := writer.versions.length
  encodedSizeUpperBound _ := none
  encodedSizeUpperBoundAfterSortedEntry _ _ _ := none
  additionalRangeTombstoneSizeUpperBound _ _ _ := none
  fileSize writer := writer.versions.length

def collectingConfig : PartitionOutputConfig where
  cfId := 0
  targetLevel := 1
  generation := 1
  targetSstSize := 1
  tombstoneGc := ⟨none, true, true⟩
  outputSizeLimit := none
  grandparentOverlap := {}

def collectedSsts : List SstContents :=
  [⟨[⟨[2], 9, false, some [7], none⟩, ⟨[3], 3, false, some [7], none⟩, ⟨[5], 8, true, none, none⟩],
      [⟨[1], [4], 5⟩]⟩,
    ⟨[⟨[2], 4, false, some [1], none⟩, ⟨[6], 2, false, some [6], none⟩], []⟩]

def collectedInputs : List CompactionEventCursor :=
  collectedSsts.map fun sst => (sstEvents sst).map .ok

/-- Data that is newer in the hull of the inputs, and older outside of it. -/
def keptContents : SstContents :=
  ⟨[⟨[3], 11, false, some [8], none⟩, ⟨[9], 1, false, some [9], none⟩], [⟨[7], [8], 2⟩]⟩

/-- A key past all those of the inputs. -/
def endOfHull : Key := [7]

theorem collectedInputs_wellFormed : ∀ c ∈ collectedInputs, WellFormedStream c := by
  have hsorted : ∀ sst ∈ collectedSsts,
      (sst.versions.map RawSstVersion.key).Pairwise (· ≤ ·) := by decide
  intro c hc
  obtain ⟨sst, hsst, rfl⟩ := mem_map.1 hc
  exact wellFormedStream_sstEvents (hsorted sst hsst)

theorem keptContents_newer : (streamContents collectedInputs).NewerInHull keptContents := by
  have hull : ∀ k, (streamContents collectedInputs).InHull k → k < endOfHull := by
    rintro k ⟨a, -, b, hb, -, hk⟩
    have hbounds : ∀ b ∈ (streamContents collectedInputs).bounds, b < endOfHull := by decide
    exact hk.trans_lt (hbounds b hb)
  have hseq : ∀ s ∈ (streamContents collectedInputs).sequences, s < 11 := by decide
  constructor
  · intro v hv hk s hs
    simp only [keptContents, mem_cons, not_mem_nil, or_false] at hv
    rcases hv with rfl | rfl
    · exact hseq s hs
    · exact absurd (hull _ hk) (by decide)
  · rintro t ht ⟨k, hk, hc⟩
    simp only [keptContents, mem_singleton] at ht
    subst ht
    exact absurd (hc.1.trans_lt (hull k hk)) (by decide)

theorem writePartitionedCompactionOutputs_resolve_collected :
    ∃ outputs env', writePartitionedCompactionOutputs countingFactory collectedInputs
        collectingConfig Exec.calm = .ok (outputs, env') ∧
      ∀ k, (outputContents outputs ++ keptContents).resolve k 20 =
        (streamContents collectedInputs ++ keptContents).resolve k 20 :=
  ⟨_, _, rfl, fun k => writePartitionedCompactionOutputs_resolve countingFactory collectedInputs
    collectingConfig Exec.calm _ _ collectedInputs_wellFormed rfl keptContents
    (fun _ => keptContents_newer) k 20 (by decide)⟩

end Midge
