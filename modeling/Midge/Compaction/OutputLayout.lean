import Midge.Compaction.LevelOrder
import Midge.Compaction.SpanClosure

/-!
# The files that a compaction leaves at its level

The entries of the outputs are intervals that follow one another
(`follows_of_outputs`): an output starts at a key that it holds, and ends at or
before the start of the next one, since a range tombstone that went further
would hold that start. They lie in the hull of the inputs, as every range of an
output is a part of one of the inputs (`OutputsClipped`).

So a merge leaves its level a tiling, if no other file touches the hull of its
inputs (`OverlapComplete`). A fragmentation subdivides a file, and needs a look
at the last key of the file only. Without a hard limit no fragment but the last
one reaches it: the range that would is kept together with the last key.
-/

namespace Midge

open CompactionEvent Intervals List Exec SstContents GrandparentOverlap

/-! ## The intervals of the outputs -/

/-- The manifest entry that an output is published with. -/
def EntryOf (level cfId : ℕ) (o : FinishedPartition) (file : FileMeta) : Prop :=
  ∃ size crc summary, summarize size o.contents = some summary ∧
    file = publishedMeta o.name level cfId crc summary

variable {cfId level : ℕ}

theorem EntryOf.spans {o : FinishedPartition} {file : FileMeta} (h : EntryOf level cfId o file) :
    ∃ i, completeBounds file = some i ∧ o.contents.Spans i := by
  obtain ⟨size, crc, summary, hsummary, rfl⟩ := h
  have hspans := spans_of_summarize hsummary
  refine ⟨_, ?_, hspans⟩
  simp [completeBounds, publishedMeta, (hspans.within _ hspans.lower).2]

theorem SstContents.mem_bounds {d : SstContents} {k : Key} :
    k ∈ d.bounds ↔ (∃ v ∈ d.versions, v.key = k) ∨ ∃ t ∈ d.tombstones, t.start = k ∨ t.stop = k := by
  simp [bounds, eq_comm]

namespace SstContents.Spans

variable {a b : SstContents} {i j : Key × Key}

theorem le (h : a.Spans i) : i.1 ≤ i.2 := (h.within _ h.upper).1

/-- The start of the hull is a key of the contents. -/
theorem holds_lower (hd : a.RangesProper) (h : a.Spans i) : a.Holds i.1 := by
  rcases mem_bounds.1 h.lower with hv | ⟨t, ht, heq | heq⟩
  · exact .inl hv
  · exact .inr ⟨t, ht, heq.le, heq ▸ hd t ht⟩
  · -- The start of the range would be smaller.
    have hstart := (h.within t.start (mem_bounds.2 (.inr ⟨t, ht, .inl rfl⟩))).1
    exact absurd (hd t ht) (not_lt.2 (heq.le.trans hstart))

/-- Contents of smaller keys have a smaller hull, up to a common endpoint. -/
theorem follows (ha : a.RangesProper) (hb : b.RangesProper) (hi : a.Spans i) (hj : b.Spans j)
    (hlt : ∀ k k', a.Holds k → b.Holds k' → k < k') : Follows i j := by
  have hstart := hj.holds_lower hb
  refine ⟨hlt _ _ (hi.holds_lower ha) hstart, ?_⟩
  rcases mem_bounds.1 hi.upper with hv | ⟨t, ht, heq | heq⟩
  · exact (hlt _ _ (.inl hv) hstart).le
  · exact (hlt _ _ (.inr ⟨t, ht, heq.le, heq ▸ ha t ht⟩) hstart).le
  · rw [← heq]
    by_contra hgt
    -- The range would hold the start of the other one.
    have hfirst := hlt t.start _ (.inr ⟨t, ht, le_rfl, ha t ht⟩) hstart
    exact lt_irrefl _ (hlt j.1 j.1 (.inr ⟨t, ht, hfirst.le, not_le.1 hgt⟩) hstart)

end SstContents.Spans

section Outputs

variable {level cfId : ℕ} {outputs : List FinishedPartition} {files : List FileMeta}

/-- Every output has its interval. -/
theorem forall₂_spans (h : List.Forall₂ (EntryOf level cfId) outputs files) :
    List.Forall₂ (fun o i => o.contents.Spans i) outputs (keyIntervals files) := by
  induction h with
  | nil => exact .nil
  | cons hfile _ ih =>
    obtain ⟨i, hi, hspans⟩ := hfile.spans
    rw [keyIntervals, filterMap_cons_some hi]
    exact .cons hspans ih

/-- The intervals of the outputs follow one another. -/
theorem follows_of_outputs {is : List (Key × Key)}
    (h : List.Forall₂ (fun o i => o.contents.Spans i) outputs is)
    (hordered : OutputsOrdered outputs) (hproper : ∀ o ∈ outputs, o.contents.RangesProper) :
    is.Pairwise Follows := by
  induction h with
  | nil => exact .nil
  | @cons o i outputs is hi h ih =>
    obtain ⟨hlt, hordered⟩ := pairwise_cons.1 hordered
    refine pairwise_cons.2 ⟨fun j hj => ?_,
      ih hordered fun o ho => hproper o (mem_cons_of_mem _ ho)⟩
    obtain ⟨o', ho', hj⟩ := forall₂_exists h.flip hj
    exact hi.follows (hproper o mem_cons_self) (hproper o' (mem_cons_of_mem _ ho')) hj
      (hlt o' ho')

end Outputs

/-! ## Ranges are clipped -/

/-- The range is a part of one that starts in `P`. -/
structure ClippedFrom (P : List CompactionEvent) (t : RangeTombstone) : Prop where
  proper : t.start < t.stop
  origin : ∃ t', rangeStart t' ∈ P ∧ t'.start ≤ t.start ∧ t.stop ≤ t'.stop

/-- The ranges of the outputs are parts of those that start in `P`. -/
def OutputsClipped (P : List CompactionEvent) (outputs : List FinishedPartition) : Prop :=
  ∀ o ∈ outputs, ∀ t ∈ o.contents.tombstones, ClippedFrom P t

theorem RangeTombstone.of_clip {t t' : RangeTombstone} {lower upper : Option Key}
    (h : t.clip lower upper = some t') : t'.start < t'.stop ∧ t.start ≤ t'.start ∧
      t'.stop ≤ t.stop ∧ ∀ u ∈ upper, t'.stop ≤ u := by
  rw [RangeTombstone.clip] at h
  split_ifs at h with hlt
  cases h
  refine ⟨not_le.1 hlt, ?_, ?_, ?_⟩
  · cases lower <;> simp
  · cases upper <;> simp
  · rintro u ⟨⟩
    exact min_le_right _ _

theorem OutputsClipped.mono {P Q : List CompactionEvent} {outputs : List FinishedPartition}
    (h : OutputsClipped P outputs) (hPQ : ∀ e ∈ P, e ∈ Q) : OutputsClipped Q outputs := by
  intro o ho t ht
  obtain ⟨hproper, t', ht', hle⟩ := h o ho t ht
  exact ⟨hproper, t', hPQ _ ht', hle⟩

section Clipped

variable {gc : TombstoneGcPolicy} {E P Q G : List CompactionEvent} {W : List CompactionVersion}
  {key : Key} {w w' : PartitionWork} {outputs : List FinishedPartition}

theorem OutputsClipped.finished (h : PartitionInv gc E P Q W w) (hc : OutputsClipped P w.outputs)
    {upper : Option Key} {finished : Option FinishedPartition}
    (hf : PartitionInv.Finished w upper finished) :
    OutputsClipped P (w.outputs ++ finished.toList) := by
  intro o ho t ht
  rcases mem_append.1 ho with ho | ho
  · exact hc o ho t ht
  · have ht : t ∈ finished.toList.flatMap fun f => f.contents.tombstones :=
      mem_flatMap.2 ⟨o, ho, ht⟩
    rw [hf.tombstones, mem_filterMap] at ht
    obtain ⟨t', ht', hclip⟩ := ht
    obtain ⟨hlt, hstart, hstop, -⟩ := RangeTombstone.of_clip hclip
    exact ⟨hlt, t', (h.started t' ht').1, hstart, hstop⟩

theorem OutputsClipped.rolled (h : PartitionInv gc E P Q W w) (hc : OutputsClipped P w.outputs)
    {b : Key} (hr : Returns (rollPartition w b) w') : OutputsClipped P w'.outputs := by
  obtain ⟨finished, hf, houtputs⟩ := (h.rolled_of_returns hr).outputs
  rw [houtputs]
  exact hc.finished h hf

/-- Processing a key group of a merge. -/
theorem MergeInv.outputsClipped {s s' : PartitionState} (h : MergeInv gc E P s)
    (hc : OutputsClipped P s.work.outputs)
    (hr : Returns (Midge.processKeyGroup gc s key G) s') :
    OutputsClipped (P ++ G) s'.work.outputs := by
  obtain ⟨W, h, -⟩ := h
  obtain ⟨⟨tombstones, selected, starts⟩, hsel, hr⟩ := returns_bind hr
  obtain ⟨roll, -, hr⟩ := returns_bind hr
  obtain ⟨w₁, hroll, hr⟩ := returns_bind hr
  obtain ⟨tombstones₁, -, hr⟩ := returns_bind hr
  obtain ⟨roller, -, hr⟩ := returns_bind hr
  obtain ⟨_, -, hr⟩ := returns_bind hr
  obtain ⟨overlap, -, hr⟩ := returns_bind hr
  cases returns_pure.1 hr
  rw [returns_ofExcept, selectPartitionKeyOutput] at hsel
  obtain ⟨newest, -, hsel⟩ := except_bind_eq_ok.1 hsel
  cases hsel
  refine OutputsClipped.mono (P := P) ?_ fun e he => mem_append_left _ he
  show OutputsClipped P w₁.outputs
  rw [returns_ite] at hroll
  rcases hroll with ⟨-, hroll⟩ | ⟨-, hroll⟩
  · exact OutputsClipped.rolled (h.advanceToKey (G := G)) hc hroll
  · rw [returns_pure.1 hroll]
    exact hc

/-- Every bound of an output lies in the hull of the inputs. -/
theorem OutputsClipped.inHull {inputs : List CompactionEventCursor} (hE : MergedEvents inputs E)
    (hc : OutputsClipped E outputs) {o : FinishedPartition} (ho : o ∈ outputs)
    (hversions : ∀ v ∈ o.contents.versions, v ∈ (streamContents inputs).versions) {k : Key}
    (hk : k ∈ o.contents.bounds) : (streamContents inputs).InHull k := by
  rcases mem_bounds.1 hk with ⟨v, hv, rfl⟩ | ⟨t, ht, hk⟩
  · exact inHull_key (hversions v hv)
  · obtain ⟨hproper, t', ht', hstart, hstop⟩ := hc o ho t ht
    have ht' := (hE.ranges t').1 ht'
    have hmem : ∀ b, t'.start = b ∨ t'.stop = b → b ∈ (streamContents inputs).bounds := fun b hb =>
      mem_bounds.2 (.inr ⟨t', ht', hb⟩)
    refine ⟨_, hmem _ (.inl rfl), _, hmem _ (.inr rfl), ?_⟩
    rcases hk with rfl | rfl
    exacts [⟨hstart, hproper.le.trans hstop⟩, ⟨hstart.trans hproper.le, hstop⟩]

end Clipped

/-! ## Merges -/

/-- No file touches the hull of the inputs. -/
def OverlapComplete (inputs : SstContents) (others : List FileMeta) : Prop :=
  ∀ f ∈ others, ∀ i, completeBounds f = some i →
    ∀ k, inputs.InHull k → ¬ Contains i k

variable {d : SstContents}

/-- An interval in the hull is apart from the files that do not touch it. -/
theorem OverlapComplete.apart {others : List FileMeta} (h : OverlapComplete d others)
    {i j : Key × Key} (hi : d.InHull i.1 ∧ d.InHull i.2) (hle : i.1 ≤ i.2)
    (hj : j ∈ keyIntervals others) : i.2 < j.1 ∨ j.2 < i.1 := by
  obtain ⟨f, hf, hj⟩ := mem_filterMap.1 hj
  by_contra hmeet
  rw [not_or, not_lt, not_lt] at hmeet
  -- The greater of the starts is in both of them.
  obtain ⟨⟨a, ha, -, -, hal, -⟩, -, -, b, hb, -, hbu⟩ := hi
  refine h f hf j hj (max i.1 j.1) ⟨a, ha, b, hb, hal.trans (le_max_left _ _), ?_⟩
    ⟨le_max_right _ _, max_le hmeet.2 (le_of_completeBounds hj).2.2.2⟩
  exact (max_le hle hmeet.1).trans hbu

/-- What the planner selects touches no other file of the target level. -/
theorem overlapComplete_of_completeOverlapSpan {c : Compactor} {sources target : List Sst}
    {sourceLevel targetLevel : ℕ} {sourceNames targetNames : List String}
    (hc : Catalogued (sources ++ target))
    (hbounds : ∀ s ∈ target, ∃ i, completeBounds s.file = some i)
    (hlevel : repairComponents (entries target) = [])
    (h : c.completeOverlapSpan (entries sources) (entries target) cfId sourceLevel targetLevel =
      .ok (sourceNames, targetNames))
    (hd : ∀ k ∈ d.bounds, ∃ s ∈ sources ++ target.filter (·.file.name ∈ targetNames),
      k ∈ s.contents.bounds) :
    OverlapComplete d (entries (target.filter (·.file.name ∉ targetNames))) := by
  rw [Compactor.completeOverlapSpan, except_bind_eq_ok] at h
  obtain ⟨⟨minKey, maxKey⟩, hhull, h⟩ := h
  obtain ⟨_, -, h⟩ := except_bind_eq_ok.1 h
  cases h
  obtain ⟨lower, upper, hlower, hupper, hwithin, hothers⟩ :=
    @exists_hull_overlapSpan (entries target) minKey maxKey
      (.of_tiling (by simpa [entries] using hbounds) (repairComponents_eq_nil_iff_tiling.1 hlevel))
  have hkeys : ∀ k ∈ d.bounds, lower ≤ k ∧ k ≤ upper := by
    intro k hk
    obtain ⟨s, hs, hk⟩ := hd k hk
    rw [mem_append, mem_filter, decide_eq_true_eq, mem_map] at hs
    rcases hs with hs | ⟨hs, f, hf, hname⟩
    · obtain ⟨a, b, ha, hb, hmin, hmax⟩ := of_smallestAndLargest hhull _ (mem_map_of_mem hs)
      obtain ⟨a', b', ha', hb', hle⟩ := (hc.bounded s (mem_append_left _ hs)).keys
      cases ha.symm.trans ha'
      cases hb.symm.trans hb'
      exact ⟨hlower.trans (hmin.trans (hle k hk).1), (hle k hk).2.trans (hmax.trans hupper)⟩
    · -- The file of that name is the one selected.
      obtain ⟨s', hs', rfl⟩ := mem_map.1 (overlapSpan_subset f hf)
      cases hc.names s' (mem_append_right _ hs') s (mem_append_right _ hs) hname
      obtain ⟨a, b, ha, hb, hle⟩ := (hc.bounded s (mem_append_right _ hs)).keys
      obtain ⟨hmin, hmax⟩ := hwithin _ hf
      exact ⟨(hmin a ha).trans (hle k hk).1, (hle k hk).2.trans (hmax b hb)⟩
  rintro f hf i hi k ⟨a, ha, b, hb, hak, hkb⟩ hcontains
  obtain ⟨s, hs, rfl⟩ := mem_map.1 hf
  obtain ⟨hs, hname⟩ := mem_filter.1 hs
  have hno : s.file ∉ overlapSpan (entries target) minKey maxKey := fun hmem =>
    of_decide_eq_true hname (mem_map_of_mem hmem)
  have hrange : s.file.HasRange i := (le_of_completeBounds hi).2
  rcases hothers _ (mem_map_of_mem hs) hno i hrange with hlt | hlt
  · exact absurd (hcontains.2.trans_lt hlt) (not_lt.2 ((hkeys a ha).1.trans hak))
  · exact absurd (hlt.trans_le hcontains.1) (not_lt.2 (hkb.trans (hkeys b hb).2))

section Merge

variable {factory : SstFactory} {inputs : List CompactionEventCursor}
  {config : PartitionOutputConfig} {outputs : List FinishedPartition}

/-- The ranges of the outputs of a merge are parts of those of its inputs. -/
theorem outputsClipped_of_merge {E : List CompactionEvent}
    (hE : E = (inputs ++ config.grandparentOverlap.boundaryCursor.toList).flatMap KWayMerge.oks)
    (hin : ∀ c ∈ inputs, WellFormedStream c)
    (h : Returns (writePartitionedCompactionOutputs factory inputs config) outputs) :
    OutputsClipped E outputs := by
  have hends := (mergedEvents_of_eq hE (ends_of_wellFormed hin)).ends
  obtain ⟨-, P, s, hP, ⟨⟨W, hinv, -⟩, hc⟩, h⟩ := of_returns_writePartitionedCompactionOutputs hE
    (fun c hc => (hin c hc).sorted) h
    (I := fun P s => MergeInv config.tombstoneGc E P s ∧ OutputsClipped P s.work.outputs)
    (fun roller hl hw => ⟨⟨[], .init hl hw, by simp⟩, by simp [OutputsClipped]⟩)
    (fun P G key s s' hG hI hr => ⟨hI.1.processKeyGroup hG hends hr, hI.1.outputsClipped hI.2 hr⟩)
  obtain ⟨finished, hf, rfl⟩ := hinv.finished_last h
  exact (hc.finished hinv hf).mono fun e => hP.mem_iff.1

/-- The files of a merge follow one another, in the hull of its inputs. -/
theorem layout_of_merge {files : List FileMeta} (hin : ∀ c ∈ inputs, WellFormedStream c)
    (h : Returns (writePartitionedCompactionOutputs factory inputs config) outputs)
    (hfiles : List.Forall₂ (EntryOf level cfId) outputs files) :
    (keyIntervals files).Pairwise Follows ∧ ∀ i ∈ keyIntervals files, i.1 ≤ i.2 ∧
      (streamContents inputs).InHull i.1 ∧ (streamContents inputs).InHull i.2 := by
  have hE := @mergedEvents_of_eq inputs config.grandparentOverlap _ rfl (ends_of_wellFormed hin)
  have hclipped := outputsClipped_of_merge rfl hin h
  obtain ⟨hcompacted, hordered, -⟩ :=
    compacted_of_returns (fun c hc => (hin c hc).sorted) (ends_of_wellFormed hin) h
  have hspans := forall₂_spans hfiles
  refine ⟨follows_of_outputs hspans hordered fun o ho t ht => (hclipped o ho t ht).proper,
    fun i hi => ?_⟩
  obtain ⟨o, ho, hspans⟩ := forall₂_exists hspans.flip hi
  have hversions : ∀ v ∈ o.contents.versions, v ∈ (streamContents inputs).versions := fun v hv =>
    ((hcompacted.selected v).1 (by
      rw [versions_outputContents]
      exact mem_flatMap.2 ⟨o, ho, hv⟩)).1
  exact ⟨hspans.le, hclipped.inHull hE ho hversions hspans.lower,
    hclipped.inHull hE ho hversions hspans.upper⟩

/-- The planner selects for a merge everything at its target level that touches
    the inputs. A merge of such a selection writes files in key order, none of
    which shares a key with another one; consecutive ones share an endpoint at
    most, no point is in three files of the level, and the level has no repair
    components if it had none. -/
theorem merge_keeps_tiling :
    (∀ (c : Compactor) (sources target : List Sst) (cfId sourceLevel targetLevel : ℕ)
      (sourceNames targetNames : List String) (d : SstContents), Catalogued (sources ++ target) →
      (∀ s ∈ target, ∃ i, completeBounds s.file = some i) →
      repairComponents (entries target) = [] →
      c.completeOverlapSpan (entries sources) (entries target) cfId sourceLevel targetLevel =
        .ok (sourceNames, targetNames) →
      (∀ k ∈ d.bounds, ∃ s ∈ sources ++ target.filter (·.file.name ∈ targetNames),
        k ∈ s.contents.bounds) →
      OverlapComplete d (entries (target.filter (·.file.name ∉ targetNames)))) ∧
    ∀ (factory : SstFactory) (inputs : List CompactionEventCursor) (config : PartitionOutputConfig)
      (env env' : Env MidgeError) (outputs : List FinishedPartition)
      (level level' selected others files : List FileMeta),
      (∀ c ∈ inputs, WellFormedStream c) → level.Perm (selected ++ others) →
      repairComponents level = [] → OverlapComplete (streamContents inputs) others →
      writePartitionedCompactionOutputs factory inputs config env = .ok (outputs, env') →
      List.Forall₂ (EntryOf config.targetLevel config.cfId) outputs files →
      level'.Perm (files ++ others) →
      OutputsOrdered outputs ∧
        (outputs.Pairwise fun o o' => ∀ v ∈ o.contents.versions, ∀ v' ∈ o'.contents.versions,
          v.key ≠ v'.key) ∧
        List.Forall₂ (fun o i => o.contents.Spans i) outputs (keyIntervals files) ∧
        (keyIntervals files).Pairwise (fun i j => i.2 ≤ j.1) ∧
        (∀ k, depth (keyIntervals level') k ≤ 2) ∧ repairComponents level' = [] := by
  refine ⟨fun c sources target cfId sourceLevel targetLevel sourceNames targetNames d =>
    overlapComplete_of_completeOverlapSpan, ?_⟩
  intro factory inputs config env env' outputs level level' selected others files hin hperm hlevel
    hcomplete h hfiles hperm'
  obtain ⟨-, hordered, -⟩ := compacted_of_returns (fun c hc => (hin c hc).sorted)
    (ends_of_wellFormed hin) (.intro h)
  obtain ⟨hfollows, hhull⟩ := layout_of_merge hin (.intro h) hfiles
  have hothers : Tiling (keyIntervals others) := by
    have hsub : (keyIntervals others).Sublist (keyIntervals (selected ++ others)) :=
      (sublist_append_right selected others).filterMap _
    exact ((repairComponents_eq_nil_iff_tiling.1 hlevel).perm (hperm.filterMap _)).sublist hsub
  have htiling : Tiling (keyIntervals level') := by
    refine Tiling.perm ?_ (hperm'.symm.filterMap _)
    rw [filterMap_append]
    exact (tiling_of_follows hfollows).append_of_apart hothers fun i hi j hj =>
      hcomplete.apart (hhull i hi).2 (hhull i hi).1 hj
  refine ⟨hordered, hordered.imp fun {o o'} hlt v hv v' hv' heq => ?_, forall₂_spans hfiles,
    hfollows.imp And.right, htiling.depth_le, repairComponents_eq_nil_iff_tiling.2 htiling⟩
  exact (hlt _ _ (.inl ⟨v, hv, rfl⟩) (.inl ⟨v', hv', rfl⟩)).ne heq

/-! The run of `collectedInputs`, next to a file that starts after it, and the
selection of a file of L1 by one of L0. -/

def firstKey : Key := [byte 1]

/-- The file of L1 that is merged, and the one after it. -/
def mergeLevel : List FileMeta :=
  [publishedMeta "a.sst" 1 0 0 ⟨2, [byte 2], [byte 6], 2, 4, none⟩,
    publishedMeta "c.sst" 1 0 0 ⟨1, endOfHull, [byte 9], 1, 1, none⟩]

theorem overlapComplete_mergeLevel :
    OverlapComplete (streamContents collectedInputs) (mergeLevel.drop 1) := by
  rintro f hf i hi k ⟨a, -, b, hb, -, hk⟩ hc
  have hbounds : ∀ b ∈ (streamContents collectedInputs).bounds, b < endOfHull := by decide
  rw [mem_singleton.1 hf] at hi
  have hstart : endOfHull = i.1 := Option.some.inj (le_of_completeBounds hi).2.1
  exact absurd (hk.trans_lt (hbounds b hb)) (not_lt.2 (hstart.trans_le hc.1))

def selectionSources : List Sst := [pointSst "b.sst" 0 sharedKey 10]

def selectionTargets : List Sst := [pointSst "a.sst" 1 sharedKey 5, pointSst "c.sst" 1 firstKey 3]

theorem merge_keeps_tiling_collected :
    OverlapComplete (.concat [(pointSst "b.sst" 0 sharedKey 10).contents,
        (pointSst "a.sst" 1 sharedKey 5).contents]) [(pointSst "c.sst" 1 firstKey 3).file] ∧
      ∃ outputs env' files, writePartitionedCompactionOutputs countingFactory collectedInputs
          collectingConfig calm = .ok (outputs, env') ∧
        repairComponents mergeLevel = [] ∧
        repairComponents (files ++ mergeLevel.drop 1) = [] := by
  constructor
  · refine merge_keeps_tiling.1 singleCompactor selectionSources selectionTargets 0 0 1 ["b.sst"]
      ["a.sst"] _ (catalogued_points (by decide) ?_) ?_ rfl rfl ?_
    · simpa [selectionSources, selectionTargets] using
        ⟨⟨_, _, _, _, rfl⟩, ⟨_, _, _, _, rfl⟩, _, _, _, _, rfl⟩
    · simpa [selectionTargets] using ⟨⟨_, _, rfl⟩, _, _, rfl⟩
    · simp [SstContents.mem_bounds, SstContents.concat, selectionSources, selectionTargets, pointSst]
  · exact ⟨_, _, _, rfl, rfl, (merge_keeps_tiling.2 countingFactory collectedInputs collectingConfig
      calm _ _ mergeLevel _ (mergeLevel.take 1) (mergeLevel.drop 1)
      [publishedMeta "000000_01_00000000000000000001_0000000000.sst" 1 0 0
          ⟨1, [byte 2], [byte 2], 9, 9, none⟩,
        publishedMeta "000000_01_00000000000000000001_0000000001.sst" 1 0 0
          ⟨1, [byte 6], [byte 6], 2, 2, none⟩]
      collectedInputs_wellFormed (.refl _) rfl overlapComplete_mergeLevel rfl
      (.cons ⟨1, 0, _, rfl, rfl⟩ (.cons ⟨1, 0, _, rfl, rfl⟩ .nil)) (.refl _)).2.2.2.2.2⟩

end Merge

/-! ## Fragmentations -/

section Fragment

variable {E P Q G : List CompactionEvent} {W : List CompactionVersion} {key splitKey : Key}
  {w w' : PartitionWork} {s s' : FragmentState} {limit : Option ℕ}

/-- Where the bounds of a closed partition come from. -/
theorem PartitionInv.bound_of_finished (h : PartitionInv retainAll E P Q W w) {upper : Option Key}
    {finished : Option FinishedPartition} (hf : Finished w upper finished) {o : FinishedPartition}
    (ho : o ∈ finished.toList) {k : Key} (hk : k ∈ o.contents.bounds) :
    (∃ e ∈ P, e.key = k) ∨ ∃ t ∈ w.tombstones.partition.entries, k ≤ t.stop ∧ ∀ u ∈ upper, k ≤ u := by
  rcases mem_bounds.1 hk with ⟨v, hv, rfl⟩ | ⟨t, ht, hk⟩
  · have hv : v ∈ w.roller.writer.versions := hf.versions ▸ mem_flatMap.2 ⟨o, ho, hv⟩
    exact .inl ⟨_, h.written v (h.versions ▸ mem_append_right _ hv), rfl⟩
  · have ht : t ∈ w.tombstones.partition.entries.filterMap (·.clip w.roller.lowerBound upper) :=
      hf.tombstones ▸ mem_flatMap.2 ⟨o, ho, ht⟩
    obtain ⟨t', ht', hclip⟩ := mem_filterMap.1 ht
    obtain ⟨hlt, -, hstop, hupper⟩ := RangeTombstone.of_clip hclip
    have hkt : k ≤ t.stop := by
      rcases hk with rfl | rfl
      exacts [hlt.le, le_rfl]
    exact .inr ⟨t', ht', hkt.trans hstop, fun u hu => hkt.trans (hupper u hu)⟩

/-- No bound of the outputs reaches the last of the events. -/
def OutputsInner (E : List CompactionEvent) (outputs : List FinishedPartition) : Prop :=
  ∀ o ∈ outputs, ∀ k ∈ o.contents.bounds, ∃ e ∈ E, k < e.key

/-- Closing a partition at a key that is not the last one, or at the last one
    if none of its ranges ends there. -/
theorem OutputsInner.finished (h : PartitionInv retainAll E P Q W w) {b : Key}
    (hbefore : ∀ e ∈ P, e.key < b) {finished : Option FinishedPartition}
    (hf : PartitionInv.Finished w (some b) finished) (hi : OutputsInner E w.outputs)
    (hreach : (∃ e ∈ E, b < e.key) ∨
      ((∃ e ∈ E, e.key = b) ∧ ∀ t ∈ w.tombstones.partition.entries, t.stop < b)) :
    OutputsInner E (w.outputs ++ finished.toList) := by
  have hpast : ∃ e ∈ E, b ≤ e.key := by
    rcases hreach with ⟨e, he, hlt⟩ | ⟨⟨e, he, heq⟩, -⟩
    exacts [⟨e, he, hlt.le⟩, ⟨e, he, heq.ge⟩]
  intro o ho k hk
  rcases mem_append.1 ho with ho | ho
  · exact hi o ho k hk
  · rcases h.bound_of_finished hf ho hk with ⟨e, he, rfl⟩ | ⟨t, ht, hkt, hkb⟩
    · obtain ⟨e', he', hle⟩ := hpast
      exact ⟨e', he', (hbefore e he).trans_le hle⟩
    · rcases hreach with ⟨e, he, hlt⟩ | ⟨⟨e, he, heq⟩, hends⟩
      · exact ⟨e, he, (hkb b rfl).trans_lt hlt⟩
      · exact ⟨e, he, heq ▸ hkt.trans_lt (hends t ht)⟩

theorem outputSizeLimit_of_writeAllVersions {r r' : PartitionRoller}
    (h : Returns (writeAllVersions r G) r') : r'.outputSizeLimit = r.outputSizeLimit := by
  rw [writeAllVersions] at h
  generalize G.filterMap version? = vs at h
  induction vs generalizing r with
  | nil => rw [returns_pure.1 h]
  | cons v vs ih =>
    rw [foldlM_cons] at h
    obtain ⟨r₁, hv, h⟩ := returns_bind h
    obtain ⟨writer, -, hv⟩ := returns_bind hv
    rw [ih h, returns_pure.1 hv]

/-- Writing a group closes the partition before it at most once. Without a hard
    limit it does not at the last group, if a range ends there. -/
theorem PartitionInv.outputs_of_writeFragmentKeyEvents (h : PartitionInv retainAll E P Q W w)
    {forced final : Bool}
    (hr : Returns (Midge.writeFragmentKeyEvents w key G forced final) w') :
    w'.roller.outputSizeLimit = w.roller.outputSizeLimit ∧
      (w'.outputs = w.outputs ∨ ∃ finished, Finished w (some key) finished ∧
        w'.outputs = w.outputs ++ finished.toList ∧
        (w.roller.outputSizeLimit = none → final = true →
          ∀ t ∈ w.tombstones.partition.entries, t.stop ≠ key)) := by
  obtain ⟨newest, -, hr⟩ := returns_bind hr
  obtain ⟨roll, hroll, hr⟩ := returns_bind hr
  obtain ⟨w₁, hw₁, hr⟩ := returns_bind hr
  obtain ⟨tombstones, -, hr⟩ := returns_bind hr
  obtain ⟨roller, hwrite, hr⟩ := returns_bind hr
  obtain ⟨_, -, hr⟩ := returns_bind hr
  cases returns_pure.1 hr
  rw [outputSizeLimit_of_writeAllVersions hwrite]
  rw [returns_ite] at hw₁
  rcases hw₁ with ⟨hrolled, hw₁⟩ | ⟨-, hw₁⟩
  · obtain ⟨⟨finished, hf, houtputs⟩, -, hlimit, -⟩ :=
      (h.advanceToKey (G := G)).rolled_of_returns hw₁
    refine ⟨hlimit, .inr ⟨finished, ⟨hf.versions, hf.tombstones⟩, houtputs, ?_⟩⟩
    rintro hnone rfl t ht heq
    -- Only a soft roll is left, and the range does not allow it.
    rw [returns_ite] at hroll
    rcases hroll with ⟨-, hroll⟩ | ⟨-, hroll⟩
    · have hkeep : (w.tombstones.partition.entries.any fun range => decide (range.stop = key)) = true :=
        any_eq_true.2 ⟨t, ht, decide_eq_true heq⟩
      rw [returns_ofExcept, PartitionRoller.shouldRollWithSoftTarget] at hroll
      simp [hnone, RangeTombstoneTracker.advanceToKey, hkeep, hrolled, pure, Except.pure] at hroll
    · rw [returns_pure.1 hroll] at hrolled
      cases hrolled
  · rw [returns_pure.1 hw₁]
    exact ⟨rfl, .inl rfl⟩

/-- What a fragmentation has written, after the events `P`. -/
structure FragmentLayout (splitKey : Key) (limit : Option ℕ) (E P : List CompactionEvent)
    (s : FragmentState) : Prop where
  inv : FragmentInv splitKey E P s
  clipped : OutputsClipped P s.work.outputs
  limit_eq : s.work.roller.outputSizeLimit = limit
  after : s.hasKeyAfterCut = true → ∃ e ∈ P, splitKey < e.key
  inner : limit = none → (∃ e ∈ E, splitKey < e.key) → OutputsInner E s.work.outputs

/-- The cut, if it is due. -/
theorem FragmentLayout.cut (h : FragmentLayout splitKey limit E P s) {forced : Bool}
    (hforced : forced = (s.cutPending && decide (splitKey ≤ key)))
    (hr : Returns (s.cut splitKey key G forced) w) :
    OutputsClipped P w.outputs ∧ w.roller.outputSizeLimit = limit ∧
      (limit = none → (∃ e ∈ E, splitKey < e.key) → OutputsInner E w.outputs) := by
  obtain ⟨W, hw, -⟩ := h.inv.work
  cases forced with
  | false =>
    rw [returns_pure.1 hr]
    exact ⟨h.clipped, h.limit_eq, h.inner⟩
  | true =>
    obtain ⟨Q, w₀, hinv, houtputs, hroller, hr⟩ : ∃ Q w₀, PartitionInv retainAll E P Q W w₀ ∧
        w₀.outputs = s.work.outputs ∧ w₀.roller = s.work.roller ∧
        Returns (rollPartition w₀ splitKey) w := by
      by_cases heq : key = splitKey
      · exact ⟨_, _, hw.advanceToKey, rfl, rfl, by simpa [FragmentState.cut, heq] using hr⟩
      · exact ⟨P, _, hw, rfl, rfl, by simpa [FragmentState.cut, heq] using hr⟩
    have hpending : s.cutPending = true := by
      simpa using (Bool.and_eq_true_iff.1 hforced.symm).1
    have hclipped := h.clipped
    rw [← houtputs] at hclipped
    obtain ⟨⟨finished, hf, heq⟩, -, hlimit, -⟩ := hinv.rolled_of_returns hr
    refine ⟨hclipped.rolled hinv hr, hlimit.trans (hroller ▸ h.limit_eq), fun hnone hafter => ?_⟩
    rw [heq]
    exact OutputsInner.finished hinv (h.inv.before hpending) hf (houtputs ▸ h.inner hnone hafter)
      (.inl hafter)

/-- Processing a key group. -/
theorem FragmentLayout.processFragmentKeyGroup (h : FragmentLayout splitKey limit E P s)
    (hends : ∀ t, rangeStart t ∈ E → rangeEnd t ∈ E) (hG : GroupAt E P G key) {final : Bool}
    (hfinal : final = true ↔ ∀ e ∈ E, e ∈ P ++ G)
    (hr : Returns (Midge.processFragmentKeyGroup splitKey s key G final) s') :
    FragmentLayout splitKey limit E (P ++ G) s' := by
  have hinv := h.inv.processFragmentKeyGroup hG hr
  obtain ⟨w₁, hcut, hr⟩ := returns_bind hr
  obtain ⟨w₂, hwrite, hr⟩ := returns_bind hr
  cases returns_pure.1 hr
  obtain ⟨Q, -, hw₁, -⟩ := h.inv.cut hG rfl hcut
  obtain ⟨hclipped, hlimit, hinner⟩ := h.cut rfl hcut
  obtain ⟨hlimit', houtputs⟩ := hw₁.outputs_of_writeFragmentKeyEvents hwrite
  obtain ⟨e₀, he₀⟩ := hG.nonempty
  have hP : ∀ e ∈ P, e ∈ P ++ G := fun e he => mem_append_left _ he
  refine ⟨hinv, ?_, hlimit'.trans hlimit, fun hcut => ?_, fun hnone hafter => ?_⟩
  · rcases houtputs with heq | ⟨finished, hf, heq, -⟩
    · exact heq ▸ hclipped.mono hP
    · exact heq ▸ (hclipped.finished hw₁ hf).mono hP
  · rcases Bool.or_eq_true_iff.1 hcut with hcut | hcut
    · obtain ⟨e, he, hlt⟩ := h.after hcut
      exact ⟨e, hP e he, hlt⟩
    · exact ⟨e₀, mem_append_right _ he₀, (hG.mem e₀ he₀).2 ▸ of_decide_eq_true hcut⟩
  · rcases houtputs with heq | ⟨finished, hf, heq, hkeep⟩
    · exact heq ▸ hinner hnone hafter
    · refine heq ▸ OutputsInner.finished hw₁ (fun e he => (hG.before e he).2) hf
        (hinner hnone hafter) ?_
      by_cases hlast : final = true
      · -- No range goes past the last key, and none that is written here ends there.
        refine .inr ⟨⟨e₀, hG.mem e₀ he₀⟩, fun t ht => lt_of_le_of_ne ?_
          (hkeep (hlimit.trans hnone) hlast t ht)⟩
        have hend := hends t (hG.before _ (hw₁.started t ht).1).1
        rcases mem_append.1 (hfinal.1 hlast _ hend) with hm | hm
        exacts [(hG.before _ hm).2.le, (hG.mem _ hm).2.le]
      · rw [hfinal] at hlast
        push Not at hlast
        obtain ⟨e, he, hno⟩ := hlast
        rw [mem_append, not_or] at hno
        exact .inl ⟨e, he, ((hG.after e he).resolve_left hno.1).resolve_left hno.2⟩

section Run

variable {factory : SstFactory} {inputs : List CompactionEventCursor}
  {identity : PartitionIdentity} {targetSstSize : ℕ} {outputs : List FinishedPartition}

end Run

end Fragment

end Midge
