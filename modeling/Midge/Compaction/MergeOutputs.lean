import Midge.Compaction.PartitionInvariant

/-!
# The outputs of a merge

A merging compaction writes, of every key, the newest version, unless garbage
collection drops it (`Selected`). What it looks at, the highest obsolete range
open at the key and the ranges starting there, decides it for all the obsolete
ranges of the inputs (`covered_iff`).

So the outputs hold exactly the selected versions, and cover every key as the
live ranges do (`outputs_of_returns`), however the partitions are cut.
-/

namespace Midge

open CompactionEvent Exec List KWayMerge

variable {gc : TombstoneGcPolicy} {E P Q G : List CompactionEvent} {W : List CompactionVersion}
  {key : Key} {w : PartitionWork}

/-- The version is written: it is the newest of its key, and neither an
    obsolete range nor, if it is a tombstone, its own age drops it. -/
structure Selected (gc : TombstoneGcPolicy) (E : List CompactionEvent) (v : CompactionVersion) :
    Prop where
  mem : version v ∈ E
  newest : ∀ w, version w ∈ E → w.key = v.key → w.seq ≤ v.seq
  uncovered : ∀ t, rangeStart t ∈ E → rangeTombstoneIsObsolete t gc → t.Covers v.key →
    t.seq < v.seq
  point : ¬ (gc.pointEligible ∧ v.isTombstone ∧ tombstoneIsObsolete v.seq gc.snapshotHorizon)

variable {t : RangeTombstone}

namespace PartitionInv

theorem seq_le_of_activeTombstoneKey_le {u : RangeTombstone}
    (h : activeTombstoneKey t ≤ activeTombstoneKey u) : t.seq ≤ u.seq := by
  rw [activeTombstoneKey, activeTombstoneKey, Prod.Lex.toLex_le_toLex] at h
  rcases h with h | h
  · exact h.le
  · exact h.1.le

/-- A range open at the group covers its key. -/
theorem covers_of_open (hG : GroupAt E P G key) (hends : ∀ t, rangeStart t ∈ E → rangeEnd t ∈ E)
    (hs : rangeStart t ∈ P) (he : rangeEnd t ∉ P ++ G) : t.Covers key := by
  obtain ⟨hE, hlt⟩ := hG.before _ hs
  refine ⟨hlt.le, ?_⟩
  rcases hG.after _ (hends t hE) with h | h | h
  · exact absurd (mem_append_left _ h) he
  · exact absurd (mem_append_right _ h) he
  · exact h

/-- A range that covers the key of the group is open there or starts there. -/
theorem open_of_covers (hG : GroupAt E P G key) (hE : rangeStart t ∈ E) (hc : t.Covers key) :
    (rangeStart t ∈ P ∧ rangeEnd t ∉ P ++ G) ∨ rangeStart t ∈ G := by
  rcases hG.after _ hE with h | h | h
  · exact .inl ⟨h, hG.not_mem_append hc.2⟩
  · exact .inr h
  · exact absurd hc.1 (not_le.2 h)

/-- What garbage collection looks at, the highest obsolete range open at the
    key and the ranges starting there, decides whether any obsolete range
    drops the version. -/
theorem covered_iff (h : PartitionInv gc E P (P ++ G) W w) (hG : GroupAt E P G key)
    (hends : ∀ t, rangeStart t ∈ E → rangeEnd t ∈ E) {v : CompactionVersion} (hv : v.key = key) :
    ((w.tombstones.active.highestObsoleteCover.any fun active =>
        decide (active.Covers v.key) && decide (v.seq ≤ active.seq)) = true ∨
      ((rangeStarts G).any fun t =>
        rangeTombstoneIsObsolete t gc && decide (t.Covers v.key) &&
          decide (v.seq ≤ t.seq)) = true) ↔
    ∃ t, rangeStart t ∈ E ∧ rangeTombstoneIsObsolete t gc ∧ t.Covers v.key ∧ v.seq ≤ t.seq := by
  simp only [ActiveTombstones.highestObsoleteCover, Option.any_eq_true, Bool.and_eq_true,
    decide_eq_true_eq, any_eq_true, rangeStarts, mem_filterMap, rangeStart?_eq_some]
  constructor
  · rintro (⟨t, ht, hcov, hle⟩ | ⟨t, ⟨e, he, rfl⟩, ⟨hobs, hcov⟩, hle⟩)
    · obtain ⟨hP, -, hobs⟩ := (h.obsolete t).1 (mem_of_getLast? ht)
      exact ⟨t, (hG.before _ hP).1, hobs, hcov, hle⟩
    · exact ⟨t, (hG.mem _ he).1, hobs, hcov, hle⟩
  · rintro ⟨t, hE, hobs, hcov, hle⟩
    rcases open_of_covers hG hE (hv ▸ hcov) with ⟨hP, hQ⟩ | hstart
    · have ht := (h.obsolete t).2 ⟨hP, hQ, hobs⟩
      -- The last of the obsolete ranges has the highest sequence, and is open
      -- at the key like all of them.
      have hne := ne_nil_of_mem ht
      have ha := getLast?_eq_getLast_of_ne_nil hne
      have hta := seq_le_of_activeTombstoneKey_le
        (h.sorted.rel_getLast_of_rel_getLast_getLast ht le_rfl)
      obtain ⟨haP, haQ, -⟩ := (h.obsolete _).1 (mem_of_getLast? ha)
      exact .inl ⟨_, ha, hv ▸ covers_of_open hG hends haP haQ, hle.trans hta⟩
    · exact .inr ⟨t, ⟨_, hstart, rfl⟩, ⟨hobs, hcov⟩, hle⟩

/-- The selection of a group is its version to write, if any. -/
theorem selected_iff (h : PartitionInv gc E P (P ++ G) W w) (hG : GroupAt E P G key)
    (hends : ∀ t, rangeStart t ∈ E → rangeEnd t ∈ E) {newest : Option CompactionVersion}
    (hn : selectNewestVersion G = .ok newest) (v : CompactionVersion) :
    (newest.filter fun version =>
      survivesTombstoneGc version w.tombstones.active.highestObsoleteCover (rangeStarts G) gc) =
        some v ↔ version v ∈ G ∧ Selected gc E v := by
  rw [Option.filter_eq_some_iff]
  have survives : v.key = key →
      (survivesTombstoneGc v w.tombstones.active.highestObsoleteCover (rangeStarts G) gc = true ↔
        (∀ t, rangeStart t ∈ E → rangeTombstoneIsObsolete t gc → t.Covers v.key → t.seq < v.seq) ∧
          ¬ (gc.pointEligible ∧ v.isTombstone ∧
            tombstoneIsObsolete v.seq gc.snapshotHorizon)) := by
    intro hv
    simp only [survivesTombstoneGc, Bool.not_eq_true', ← Bool.not_eq_true, Bool.or_eq_true,
      not_or (q := _ = true), h.covered_iff hG hends hv]
    simp only [not_exists, not_and, not_le, Bool.and_eq_true, and_imp]
  constructor
  · rintro ⟨rfl, hs⟩
    obtain ⟨hv, hmax⟩ := newest_of_selectNewestVersion hn
    obtain ⟨hE, hk⟩ := hG.mem _ hv
    obtain ⟨hunc, hpoint⟩ := (survives hk).1 hs
    refine ⟨hv, hE, fun w hw hwk => hmax w (hG.mem_of_key_eq hw (hwk.trans hk)), hunc, hpoint⟩
  · rintro ⟨hv, hsel⟩
    have hk : v.key = key := (hG.mem _ hv).2
    refine ⟨?_, (survives hk).2 ⟨hsel.uncovered, hsel.point⟩⟩
    cases newest with
    | none => exact absurd hv (not_mem_of_selectNewestVersion_none hn v)
    | some u =>
      obtain ⟨hu, hmax⟩ := newest_of_selectNewestVersion hn
      have hseq : u.seq = v.seq :=
        le_antisymm (hsel.newest u (hG.mem _ hu).1 ((hG.mem _ hu).2.trans hk.symm)) (hmax v hv)
      rw [unique_of_selectNewestVersion hn (fun e he => (hG.mem e he).2) hu hv hseq]

theorem wrote_selected {r r' : PartitionRoller} {selected : Option CompactionVersion}
    (h : Returns (selected.elim (pure r) r.writeSelected) r') :
    Wrote selected.toList r r' := by
  cases selected with
  | none =>
    obtain rfl := returns_pure.1 h
    exact ⟨rfl, by simp, by simp, rfl⟩
  | some v =>
    obtain ⟨h₁, h₂, h₃, h₄⟩ := of_returns_writeSelected h
    exact ⟨h₁, fun h₀ => absurd h₀ h₂, h₃, h₄⟩

end PartitionInv

/-- The invariant of the merge loop, after the events `P`: the versions written
    are those selected. -/
def MergeInv (gc : TombstoneGcPolicy) (E P : List CompactionEvent) (s : PartitionState) : Prop :=
  ∃ W, PartitionInv gc E P P W s.work ∧ ∀ v, v ∈ W ↔ version v ∈ P ∧ Selected gc E v

/-- Processing a key group completes its events. -/
theorem MergeInv.processKeyGroup {s s' : PartitionState} (h : MergeInv gc E P s)
    (hG : GroupAt E P G key) (hends : ∀ t, rangeStart t ∈ E → rangeEnd t ∈ E)
    (hr : Returns (Midge.processKeyGroup gc s key G) s') : MergeInv gc E (P ++ G) s' := by
  obtain ⟨W, h, hW⟩ := h
  obtain ⟨⟨tombstones, selected, starts⟩, hsel, hr⟩ := returns_bind hr
  obtain ⟨roll, -, hr⟩ := returns_bind hr
  obtain ⟨w₁, hroll, hr⟩ := returns_bind hr
  obtain ⟨tombstones₁, hobserve, hr⟩ := returns_bind hr
  obtain ⟨roller, hwrite, hr⟩ := returns_bind hr
  obtain ⟨_, -, hr⟩ := returns_bind hr
  obtain ⟨overlap, -, hr⟩ := returns_bind hr
  cases returns_pure.1 hr
  rw [returns_ofExcept, selectPartitionKeyOutput] at hsel
  cases hn : selectNewestVersion G with
  | error e => rw [hn] at hsel; cases hsel
  | ok newest =>
    rw [hn] at hsel
    cases hsel
    have hadv := h.advanceToKey (G := G)
    have hselected := hadv.selected_iff hG hends hn
    have hunique : ∀ u v, version u ∈ G → version v ∈ G → u.seq = v.seq → u = v :=
      fun u v => unique_of_selectNewestVersion hn fun e he => (hG.mem e he).2
    have h₁ : PartitionInv gc E P (P ++ G) W w₁ := by
      rw [returns_ite] at hroll
      rcases hroll with ⟨-, hroll⟩ | ⟨-, hroll⟩
      · exact (hadv.rollPartition_group hG hroll).1
      · rw [returns_pure.1 hroll]
        exact hadv
    refine ⟨_, h₁.observe_write hG hobserve (fun v hv => ?_) hunique
      (PartitionInv.wrote_selected hwrite), fun v => ?_⟩
    · exact ((hselected v).1 (Option.mem_toList.1 hv)).1
    · rw [mem_append, mem_append, hW, Option.mem_toList, or_and_right]
      exact or_congr_right (hselected v)

section Run

variable {factory : SstFactory} {inputs : List CompactionEventCursor}
  {config : PartitionOutputConfig} {outputs : List FinishedPartition}

/-- The merge that a compaction runs over, and its outputs once it has. -/
theorem of_returns_writePartitionedCompactionOutputs
    (hE : E = (inputs ++ config.grandparentOverlap.boundaryCursor.toList).flatMap oks)
    (hsorted : ∀ c ∈ inputs, EventsSorted (oks c))
    (h : Returns (writePartitionedCompactionOutputs factory inputs config) outputs)
    {I : List CompactionEvent → PartitionState → Prop}
    (hinit : ∀ roller : PartitionRoller, roller.lowerBound = none → roller.writer = .empty →
      I [] ⟨⟨roller, {}, []⟩, { policy := config.grandparentOverlap }⟩)
    (hstep : ∀ P G key s s', GroupAt E P G key → I P s →
      Returns (processKeyGroup config.tombstoneGc s key G) s' → I (P ++ G) s') :
    (∀ c ∈ inputs, Clean c) ∧ ∃ P s, P.Perm E ∧ I P s ∧
      Returns (finishPartitionedOutputs s.work) outputs := by
  obtain ⟨roller, hroller, h⟩ := returns_bind (returns_seq h)
  obtain ⟨merged, hmerged, h⟩ := returns_bind h
  cases returns_pure.1 (returns_seq hroller :)
  obtain ⟨-, h⟩ := returns_ite_fail.1 h
  obtain ⟨s, hloop, h⟩ := returns_bind h
  have hcursors : ∀ c ∈ inputs ++ config.grandparentOverlap.boundaryCursor.toList,
      EventsSorted (oks c) := by
    intro c hc
    rcases mem_append.1 hc with hc | hc
    · exact hsorted c hc
    · exact (GrandparentOverlap.of_boundaryCursor (Option.mem_toList.1 hc)).1
  obtain ⟨hevents, hs, hinputs⟩ := EventMergeIterator.of_returns_new hmerged hcursors
  obtain ⟨⟨P, hP, hI⟩, hclean⟩ := of_returns_forKeyGroups (E := E) (P := []) (I := I)
    (fun P G key s _ s' hG _ hI => hstep P G key s s' hG hI) (hinit _ rfl rfl) hs le_rfl
    (by rw [nil_append, hevents, hE]) (by simp) hloop
  exact ⟨fun c hc => hinputs hclean c (mem_append_left _ hc), P, s, hP, hI, h⟩

/-- A compaction that succeeds has read its inputs without a failure. -/
theorem clean_of_returns
    (hsorted : ∀ c ∈ inputs, EventsSorted (oks c))
    (h : Returns (writePartitionedCompactionOutputs factory inputs config) outputs) :
    ∀ c ∈ inputs, Clean c :=
  (of_returns_writePartitionedCompactionOutputs (I := fun _ _ => True) rfl hsorted h
    (fun _ _ _ => trivial) fun _ _ _ _ _ _ _ _ => trivial).1

/-- What the outputs of a compaction hold: the selected versions, and for every
    key the sequences of the live ranges that cover it. -/
theorem outputs_of_returns
    (hE : E = (inputs ++ config.grandparentOverlap.boundaryCursor.toList).flatMap oks)
    (hsorted : ∀ c ∈ inputs, EventsSorted (oks c))
    (hends : ∀ t, rangeStart t ∈ E → rangeEnd t ∈ E)
    (h : Returns (writePartitionedCompactionOutputs factory inputs config) outputs) :
    ∃ W, PartitionOutputs config.tombstoneGc E W outputs ∧
      ∀ v, v ∈ W ↔ Selected config.tombstoneGc E v := by
  obtain ⟨-, P, s, hP, ⟨W, hinv, hW⟩, h⟩ := of_returns_writePartitionedCompactionOutputs hE hsorted h
    (I := MergeInv config.tombstoneGc E) (fun roller hl hw => ⟨[], .init hl hw, by simp⟩)
    (fun P G key s s' hG hI => hI.processKeyGroup hG hends)
  refine ⟨W, hinv.of_returns_finishPartitionedOutputs hP h, fun v => ?_⟩
  rw [hW, hP.mem_iff]
  exact and_iff_right_of_imp Selected.mem

end Run

end Midge
