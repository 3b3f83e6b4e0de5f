import Midge.Compaction.ExecuteSpec

/-!
# What a plan selects

A plan that merges takes files of one level and, from the next, every file that
meets their keys; from L0 it takes with every file the older ones that overlap
it (`MergePlan`). The other plans rewrite files of one level (`RewritePlan`).
-/

namespace Midge

open List

/-! ## The L0 batch -/

theorem mem_of_maxBy {α : Type*} {le : α → α → Bool} {l : List α} {a : α}
    (h : maxBy le l = some a) : a ∈ l := by
  cases l with
  | nil => cases h
  | cons b l =>
    rw [maxBy, Option.some.injEq] at h
    rw [← h]
    clear h
    induction l generalizing b with
    | nil => exact mem_singleton_self b
    | cons c l ih =>
      rw [foldl_cons]
      split_ifs
      · exact mem_cons_of_mem _ (ih c)
      · rcases mem_cons.1 (ih b) with h | h
        · exact mem_cons.2 (.inl h)
        · exact mem_cons_of_mem _ (mem_cons_of_mem _ h)

variable {remaining : List (FileMeta × ℕ)}

/-- An admissible candidate is one of the remaining files, and overlaps none of
    the older ones. -/
theorem of_mem_admissible {candidate : FileMeta × ℕ} {index : ℕ}
    (h : (candidate, index) ∈ admissible remaining) :
    remaining[index]? = some candidate ∧
      ∀ older ∈ remaining.take index, l0KeyRangesOverlap older.1 candidate.1 = false := by
  rw [admissible, mem_filter, mk_mem_zipIdx_iff_getElem?] at h
  simpa using h

/-- Every pick comes with its older overlapping files. -/
theorem pickL0Files_closed {n : ℕ}
    (hs : remaining.Pairwise fun a b => fileAgeKey a.1 ≤ fileAgeKey b.1) {s : FileMeta}
    (hmem : s ∈ pickL0Files n remaining) {f : FileMeta × ℕ} (hf : f ∈ remaining)
    (hage : fileAgeKey f.1 < fileAgeKey s) (ho : l0KeyRangesOverlap f.1 s) :
    f.1 ∈ pickL0Files n remaining := by
  induction n generalizing remaining with
  | zero => simp [pickL0Files] at hmem
  | succ n ih =>
    rw [pickL0Files] at hmem ⊢
    split at hmem
    · simp at hmem
    next candidate index hpick =>
      obtain ⟨hindex, hold⟩ := of_mem_admissible (mem_of_maxBy hpick)
      obtain ⟨hlt, hget⟩ := List.getElem?_eq_some_iff.1 hindex
      have hsplit : remaining = remaining.take index ++ candidate :: remaining.drop (index + 1) := by
        rw [← hget, cons_getElem_drop_succ, take_append_drop]
      have herase : remaining.eraseIdx index = remaining.take index ++ remaining.drop (index + 1) :=
        eraseIdx_eq_take_drop_succ _ _
      rcases mem_cons.1 hmem with rfl | hmem
      · -- The older files of the pick are those before it.
        rw [hsplit, pairwise_append, pairwise_cons] at hs
        rw [hsplit] at hf
        rcases mem_append.1 hf with hf | hf
        · rw [hold f hf] at ho
          cases ho
        · rcases mem_cons.1 hf with rfl | hf
          · exact absurd hage (lt_irrefl _)
          · exact absurd (hs.2.1.1 f hf) (not_le.2 hage)
      · have hrest : f = candidate ∨ f ∈ remaining.eraseIdx index := by
          rw [hsplit] at hf
          rw [herase]
          simp only [mem_append, mem_cons] at hf ⊢
          tauto
        rcases hrest with rfl | hrest
        · exact mem_cons_self
        · exact mem_cons_of_mem _ (ih (hs.sublist (eraseIdx_sublist _ _)) hmem hrest)

theorem pickL0Files_subset {n : ℕ} :
    ∀ s ∈ pickL0Files n remaining, ∃ heat, (s, heat) ∈ remaining := by
  induction n generalizing remaining with
  | zero => simp [pickL0Files]
  | succ n ih =>
    rw [pickL0Files]
    split
    · simp
    next candidate index hpick =>
      have hindex := (of_mem_admissible (mem_of_maxBy hpick)).1
      refine forall_mem_cons.2 ⟨⟨candidate.2, mem_of_getElem? hindex⟩, fun s hs => ?_⟩
      obtain ⟨heat, h⟩ := ih s hs
      exact ⟨heat, (eraseIdx_sublist _ _).mem h⟩

section Batch

variable {candidates : List (FileMeta × ℕ)} {batchSize : ℕ} {s : FileMeta}

theorem pairwise_age (candidates : List (FileMeta × ℕ)) :
    (candidates.insertionSort fun left right => fileAgeKey left.1 ≤ fileAgeKey right.1).Pairwise
      fun a b => fileAgeKey a.1 ≤ fileAgeKey b.1 :=
  haveI : Std.Total fun a b : FileMeta × ℕ => fileAgeKey a.1 ≤ fileAgeKey b.1 :=
    ⟨fun _ _ => le_total _ _⟩
  haveI : IsTrans (FileMeta × ℕ) fun a b => fileAgeKey a.1 ≤ fileAgeKey b.1 :=
    ⟨fun _ _ _ => le_trans⟩
  pairwise_insertionSort _ _

theorem selectLevelOrderedL0Batch_subset (hs : s ∈ selectLevelOrderedL0Batch candidates batchSize) :
    ∃ heat, (s, heat) ∈ candidates := by
  have hperm := perm_insertionSort
    (fun left right : FileMeta × ℕ => fileAgeKey left.1 ≤ fileAgeKey right.1) candidates
  unfold selectLevelOrderedL0Batch at hs
  split at hs
  next oldest remaining hsorted =>
    rw [hsorted] at hperm
    rcases mem_cons.1 hs with rfl | hs
    · exact ⟨oldest.2, hperm.mem_iff.1 mem_cons_self⟩
    · obtain ⟨heat, h⟩ := pickL0Files_subset s hs
      exact ⟨heat, hperm.mem_iff.1 (mem_cons_of_mem _ h)⟩
  next => simp at hs

/-- The batch holds, with every file, all the older files that overlap it. -/
theorem selectLevelOrderedL0Batch_closed (hs : s ∈ selectLevelOrderedL0Batch candidates batchSize)
    {f : FileMeta × ℕ} (hf : f ∈ candidates) (hage : fileAgeKey f.1 < fileAgeKey s)
    (ho : l0KeyRangesOverlap f.1 s) : f.1 ∈ selectLevelOrderedL0Batch candidates batchSize := by
  have hsorted := pairwise_age candidates
  rw [← mem_insertionSort fun left right : FileMeta × ℕ =>
    fileAgeKey left.1 ≤ fileAgeKey right.1] at hf
  unfold selectLevelOrderedL0Batch at hs ⊢
  split at hs
  next n oldest remaining heq =>
    rw [heq] at hsorted hf
    obtain ⟨holdest, hsorted⟩ := pairwise_cons.1 hsorted
    rcases mem_cons.1 hs with rfl | hs
    · -- Nothing is older than the oldest file.
      rcases mem_cons.1 hf with rfl | hf
      · exact absurd hage (lt_irrefl _)
      · exact absurd (holdest f hf) (not_le.2 hage)
    · rcases mem_cons.1 hf with rfl | hf
      · exact mem_cons_self
      · exact mem_cons_of_mem _ (pickL0Files_closed hsorted hs hf hage ho)
  next => simp at hs

end Batch

/-! ## The overlap span -/

/-- Extending a span only adds files at its ends. -/
theorem extendSpan_mono (ordered : List FileMeta) (fuel : ℕ) (span : OverlapSpan) :
    (extendSpan ordered fuel span).first ≤ span.first ∧
      span.last ≤ (extendSpan ordered fuel span).last := by
  induction fuel generalizing span with
  | zero => exact ⟨le_rfl, le_rfl⟩
  | succ fuel ih =>
    rw [extendSpan]
    split
    · have := ih ({ span with first := span.first - 1 }.include ‹_›)
      exact ⟨this.1.trans (Nat.sub_le _ _), this.2⟩
    · split
      · have := ih ({ span with last := span.last + 1 }.include ‹_›)
        exact ⟨this.1, (Nat.le_succ _).trans this.2⟩
      · exact ⟨le_rfl, le_rfl⟩

theorem foldl_include_first_last (files : List FileMeta) (span : OverlapSpan) :
    (files.foldl OverlapSpan.include span).first = span.first ∧
      (files.foldl OverlapSpan.include span).last = span.last := by
  induction files generalizing span with
  | nil => exact ⟨rfl, rfl⟩
  | cons f files ih => exact ih (span.include f)

theorem mem_files_of_between {ordered : List FileMeta} {span : OverlapSpan} {i : ℕ} {f : FileMeta}
    (hget : ordered[i]? = some f) (hfirst : span.first ≤ i) (hlast : i ≤ span.last) :
    f ∈ span.files ordered := by
  refine mem_iff_getElem?.2 ⟨i - span.first, ?_⟩
  rw [OverlapSpan.files, getElem?_take_of_lt (by omega), getElem?_drop,
    Nat.add_sub_cancel' hfirst, hget]

variable {targetFiles : List FileMeta}

/-- The span holds every file that meets the keys. -/
theorem mem_overlapSpan {minKey maxKey : Key} {f : FileMeta} (hf : f ∈ targetFiles)
    (hmeets : meetsSpan minKey maxKey f) : f ∈ overlapSpan targetFiles minKey maxKey := by
  rw [overlapSpan]
  set ordered := targetFiles.insertionSort fun left right => targetOrder left ≤ targetOrder right
  have hord : f ∈ ordered := (mem_insertionSort _).2 hf
  obtain ⟨i, hi⟩ := mem_iff_getElem?.1 hord
  obtain ⟨hlt, hget⟩ := List.getElem?_eq_some_iff.1 hi
  cases hfirst : ordered.findIdx? (meetsSpan minKey maxKey) with
  | none => exact absurd hmeets (by simpa using findIdx?_eq_none_iff.1 hfirst f hord)
  | some first =>
    cases hlast : ordered.reverse.findIdx? (meetsSpan minKey maxKey) with
    | none =>
      exact absurd hmeets
        (by simpa using findIdx?_eq_none_iff.1 hlast f (mem_reverse.2 hord))
    | some j =>
      -- The file lies between the first and the last that meet the keys.
      have hle : first ≤ i := by
        by_contra hno
        have := (findIdx?_eq_some_iff_getElem.1 hfirst).2.2 i (by omega)
        rw [hget] at this
        exact this hmeets
      have hge : i ≤ ordered.length - 1 - j := by
        by_contra hno
        have := (findIdx?_eq_some_iff_getElem.1 hlast).2.2 (ordered.length - 1 - i) (by omega)
        rw [getElem_reverse] at this
        simp only [show ordered.length - 1 - (ordered.length - 1 - i) = i by omega, hget] at this
        exact this hmeets
      have hspan := foldl_include_first_last
        (OverlapSpan.files ordered ⟨first, ordered.length - 1 - j, minKey, maxKey⟩)
        ⟨first, ordered.length - 1 - j, minKey, maxKey⟩
      have hext := extendSpan_mono ordered ordered.length
        ((OverlapSpan.files ordered ⟨first, ordered.length - 1 - j, minKey, maxKey⟩).foldl
          OverlapSpan.include ⟨first, ordered.length - 1 - j, minKey, maxKey⟩)
      rw [hspan.1, hspan.2] at hext
      exact mem_files_of_between hi (hext.1.trans hle) (hge.trans hext.2)

theorem overlapSpan_subset {minKey maxKey : Key} :
    ∀ f ∈ overlapSpan targetFiles minKey maxKey, f ∈ targetFiles := by
  intro f hf
  rw [overlapSpan] at hf
  split at hf
  · exact (mem_insertionSort _).1 (mem_of_mem_drop (mem_of_mem_take hf))
  · simp at hf

variable {files : List FileMeta}

/-- All the files have bounds, within those computed. -/
theorem of_smallestAndLargest {lower upper : Key}
    (h : smallestAndLargest files = .ok (lower, upper)) :
    ∀ f ∈ files, ∃ a b, f.smallestKey = some a ∧ f.largestKey = some b ∧ lower ≤ a ∧ b ≤ upper := by
  rw [smallestAndLargest, except_bind_eq_ok] at h
  obtain ⟨starts, hstarts, h⟩ := h
  obtain ⟨start, hstart, h⟩ := except_bind_eq_ok.1 h
  obtain ⟨stops, hstops, h⟩ := except_bind_eq_ok.1 h
  obtain ⟨stop, hstop, h⟩ := except_bind_eq_ok.1 h
  cases h
  have hmin : ∀ a ∈ starts, lower ≤ a := by
    cases hm : starts.min? with
    | none => rw [hm] at hstart; cases hstart
    | some a =>
      rw [hm] at hstart
      cases hstart
      exact (min?_eq_some_iff.1 hm).2
  have hmax : ∀ b ∈ stops, b ≤ upper := by
    cases hm : stops.max? with
    | none => rw [hm] at hstop; cases hstop
    | some b =>
      rw [hm] at hstop
      cases hstop
      exact (max?_eq_some_iff.1 hm).2
  intro f hf
  obtain ⟨a, ha, hfa⟩ := forall₂_exists (except_mapM_eq_ok hstarts) hf
  obtain ⟨b, hb, hfb⟩ := forall₂_exists (except_mapM_eq_ok hstops) hf
  cases hs : f.smallestKey with
  | none => simp [hs] at hfa
  | some a' =>
    cases hl : f.largestKey with
    | none => simp [hl] at hfb
    | some b' =>
      simp only [hs, Option.elim_some, Except.ok.injEq] at hfa
      simp only [hl, Option.elim_some, Except.ok.injEq] at hfb
      subst hfa hfb
      exact ⟨a', b', rfl, rfl, hmin a' ha, hmax b' hb⟩

/-! ## Plans -/

/-- The bounds of two files share the key. -/
def ShareKey (f g : FileMeta) (k : Key) : Prop :=
  (∃ a b, f.smallestKey = some a ∧ f.largestKey = some b ∧ a ≤ k ∧ k ≤ b) ∧
    ∃ a b, g.smallestKey = some a ∧ g.largestKey = some b ∧ a ≤ k ∧ k ≤ b

/-- The file of a family at a level. -/
def AtLevel (files : List FileMeta) (cfId level : ℕ) (f : FileMeta) : Prop :=
  f ∈ files ∧ f.cfId = cfId ∧ f.level = level

/-- The names are those of the files. -/
def NamesOf (names : List String) (files : List FileMeta) : Prop :=
  ∀ n, n ∈ names ↔ ∃ f ∈ files, f.name = n

theorem namesOf_map (files : List FileMeta) : NamesOf (files.map FileMeta.name) files :=
  fun _ => mem_map

/-- A plan that merges the sources into the next level. -/
structure MergePlan (files : List FileMeta) (plan : CompactionPlan)
    (sources targets : List FileMeta) : Prop where
  purpose : plan.purpose = .merge
  level : plan.targetLevel = plan.sourceLevel + 1
  sourcesAt : ∀ f ∈ sources, AtLevel files plan.cfId plan.sourceLevel f
  targetsAt : ∀ f ∈ targets, AtLevel files plan.cfId plan.targetLevel f
  sourceFiles : NamesOf plan.sourceFiles sources
  targetFiles : NamesOf plan.targetFiles targets
  overlap : ∀ f, AtLevel files plan.cfId plan.targetLevel f → ∀ s ∈ sources, ∀ k,
    ShareKey s f k → f ∈ targets
  older : plan.sourceLevel = 0 → ∀ s ∈ sources, ∀ f, AtLevel files plan.cfId 0 f →
    fileAgeKey f < fileAgeKey s → l0KeyRangesOverlap f s → f ∈ sources

/-- A plan that rewrites files at their own level. -/
structure RewritePlan (files : List FileMeta) (plan : CompactionPlan)
    (sources : List FileMeta) : Prop where
  purpose : plan.purpose ≠ .merge
  level : plan.targetLevel = plan.sourceLevel
  positive : 0 < plan.sourceLevel
  sourcesAt : ∀ f ∈ sources, AtLevel files plan.cfId plan.sourceLevel f
  sourceFiles : NamesOf plan.sourceFiles sources
  targetFiles : plan.targetFiles = []

theorem Compactor.level_lt_of_validateFileMetadata {c : Compactor} {cfId : ℕ}
    (h : c.validateFileMetadata cfId files = .ok ()) :
    ∀ f ∈ files, f.level < c.config.maxLevels := by
  induction files with
  | nil => simp
  | cons file files ih =>
    rw [Compactor.validateFileMetadata] at h
    split_ifs at h with hlevel
    split at h
    next =>
      split_ifs at h
      simp only [mem_cons, forall_eq_or_imp]
      exact ⟨not_le.1 hlevel, ih h⟩
    next => cases h

/-- The validated levels hold the files of the family, and there are none at
    deeper ones. -/
theorem Compactor.mem_validatedLevels {c : Compactor} {files : List FileMeta} {cfId : ℕ}
    {levels : List (List FileMeta)} (h : c.validatedLevels files cfId = .ok (some levels))
    {level : ℕ} {f : FileMeta} : f ∈ levels.getD level [] ↔ AtLevel files cfId level f := by
  rw [Compactor.validatedLevels] at h
  split_ifs at h with hnil
  · cases h
  obtain ⟨⟨⟩, hvalid, h⟩ := except_bind_eq_ok.1 h
  cases h
  rcases lt_or_ge level c.config.maxLevels with hlevel | hlevel
  · simp [AtLevel, getD_eq_getElem?_getD, getElem?_map, getElem?_range hlevel,
      and_comm]
  · have hnone : ¬ AtLevel files cfId level f := fun ⟨hf, hcf, hl⟩ => by
      have := level_lt_of_validateFileMetadata hvalid f (mem_filter.2 ⟨hf, by simpa using hcf⟩)
      omega
    simp [hnone, getD_eq_getElem?_getD, hlevel]

/-- The overlap span of the sources holds every target file that shares a key
    with one of them. -/
theorem of_completeOverlapSpan {c : Compactor} {sources : List FileMeta}
    {cfId sourceLevel targetLevel : ℕ} {sourceNames targetNames : List String}
    (h : c.completeOverlapSpan sources targetFiles cfId sourceLevel targetLevel =
      .ok (sourceNames, targetNames)) :
    ∃ targets, NamesOf sourceNames sources ∧ NamesOf targetNames targets ∧
      (∀ f ∈ targets, f ∈ targetFiles) ∧
      ∀ f ∈ targetFiles, ∀ s ∈ sources, ∀ k, ShareKey s f k → f ∈ targets := by
  rw [Compactor.completeOverlapSpan, except_bind_eq_ok] at h
  obtain ⟨⟨minKey, maxKey⟩, hhull, h⟩ := h
  obtain ⟨_, -, h⟩ := except_bind_eq_ok.1 h
  cases h
  have hhull := of_smallestAndLargest hhull
  refine ⟨_, fun n => ?_, namesOf_map _, overlapSpan_subset, fun f hf s hs k hk => ?_⟩
  · rw [mem_dedup_iff, mem_map]
  · refine mem_overlapSpan hf ?_
    obtain ⟨⟨a, b, ha, hb, hak, hkb⟩, a', b', ha', hb', hak', hkb'⟩ := hk
    obtain ⟨a₀, b₀, ha₀, hb₀, hmin, hmax⟩ := hhull s hs
    rw [ha, Option.some.injEq] at ha₀
    rw [hb, Option.some.injEq] at hb₀
    subst ha₀ hb₀
    simp only [meetsSpan, ha', hb', Option.any_some, Bool.and_eq_true, decide_eq_true_eq]
    exact ⟨hak'.trans (hkb.trans hmax), hmin.trans (hak.trans hkb')⟩

namespace Compactor

variable {c : Compactor} {files : List FileMeta} {cfId : ℕ} {levels : List (List FileMeta)}
  {plan : CompactionPlan}

/-- What a plan from L0 selects. -/
theorem of_planZeroLevel (hlevels : c.validatedLevels files cfId = .ok (some levels))
    (h : c.planZeroLevel levels cfId = .ok (some plan)) :
    plan.cfId = cfId ∧ plan.sourceLevel = 0 ∧
      ∃ sources targets, MergePlan files plan sources targets := by
  have hlevel := fun level f => @mem_validatedLevels c files cfId levels hlevels level f
  rw [planZeroLevel] at h
  split_ifs at h with hnil
  · cases h
  obtain ⟨⟨sourceFiles, targetFiles⟩, hspan, h⟩ := except_bind_eq_ok.1 h
  obtain ⟨⟨point, range⟩, -, h⟩ := except_bind_eq_ok.1 h
  cases h
  obtain ⟨targets, hsources, htargets, hsub, hover⟩ := of_completeOverlapSpan hspan
  refine ⟨rfl, rfl, _, targets, rfl, rfl, fun s hs => ?_, fun f hf => ?_, hsources, htargets,
    fun f hf => ?_, fun _ s hs f hf hage ho => ?_⟩
  · obtain ⟨heat, hmem⟩ := selectLevelOrderedL0Batch_subset hs
    obtain ⟨f, hf, heq⟩ := mem_map.1 hmem
    cases heq
    exact (hlevel 0 _).1 hf
  · exact (hlevel 1 f).1 (hsub f hf)
  · exact hover f ((hlevel 1 f).2 hf)
  · exact selectLevelOrderedL0Batch_closed hs (f := (f, f.readCount))
      (mem_map_of_mem (f := fun file => (file, file.readCount))
        ((hlevel 0 f).2 hf)) hage ho

theorem innerSources_subset {eligible : FileMeta → Bool} :
    ∀ f ∈ c.innerSources files eligible, f ∈ files := by
  intro f hf
  have hf := mem_of_mem_take hf
  have hf := (takeWhile_sublist _).mem hf
  exact (mem_insertionSort _).1 ((dropWhile_sublist _).mem hf)

/-- What a merge of a level below L0 selects. -/
theorem of_innerMergePlan {level : ℕ} (hpos : 0 < level) {sources targets : List FileMeta}
    {sourceNames targetNames : List String}
    (hsources : NamesOf sourceNames sources) (htargets : NamesOf targetNames targets)
    (hs : ∀ f ∈ sources, AtLevel files cfId level f)
    (ht : ∀ f ∈ targets, AtLevel files cfId (level + 1) f)
    (hover : ∀ f, AtLevel files cfId (level + 1) f → ∀ s ∈ sources, ∀ k, ShareKey s f k →
      f ∈ targets)
    (h : innerMergePlan levels cfId level sourceNames targetNames = .ok (some plan)) :
    plan.cfId = cfId ∧ plan.sourceLevel = level ∧ MergePlan files plan sources targets := by
  rw [innerMergePlan] at h
  obtain ⟨⟨point, range⟩, -, h⟩ := except_bind_eq_ok.1 h
  cases h
  exact ⟨rfl, rfl, rfl, rfl, hs, ht, hsources, htargets, hover, fun h₀ => absurd h₀ hpos.ne'⟩

/-- What a plan for a level below L0 selects. -/
theorem of_planInnerLevelFiltered (hlevels : c.validatedLevels files cfId = .ok (some levels))
    {level : ℕ} (hpos : 0 < level)
    {eligible : FileMeta → Bool}
    (h : c.planInnerLevelFiltered levels cfId level eligible = .ok (some plan)) :
    plan.cfId = cfId ∧ plan.sourceLevel = level ∧
      ((∃ sources targets, MergePlan files plan sources targets) ∨
        ∃ sources, RewritePlan files plan sources) := by
  have hlevel := fun level f => @mem_validatedLevels c files cfId levels hlevels level f
  have hsub : ∀ f ∈ c.innerSources (levels.getD level []) eligible,
      AtLevel files cfId level f := fun f hf => (hlevel level f).1 (innerSources_subset f hf)
  -- Any selection of the available sources gives a merge.
  have hmerge : ∀ sources : List FileMeta, (∀ f ∈ sources, AtLevel files cfId level f) →
      ∀ sourceNames targetNames, c.completeOverlapSpan sources (levels.getD (level + 1) []) cfId
        level (level + 1) = .ok (sourceNames, targetNames) →
      innerMergePlan levels cfId level sourceNames targetNames = .ok (some plan) →
      plan.cfId = cfId ∧ plan.sourceLevel = level ∧
        ∃ sources targets, MergePlan files plan sources targets := by
    intro sources hs sourceNames targetNames hspan h
    obtain ⟨targets, hn, hn', ht, hover⟩ := of_completeOverlapSpan hspan
    obtain ⟨hcf, hsource, hplan⟩ := of_innerMergePlan hpos hn hn' hs
      (fun f hf => (hlevel _ f).1 (ht f hf)) (fun f hf => hover f ((hlevel _ f).2 hf)) h
    exact ⟨hcf, hsource, sources, targets, hplan⟩
  rw [planInnerLevelFiltered] at h
  split_ifs at h with hnil
  · cases h
  obtain ⟨⟨sourceNames, targetNames⟩, hspan, h⟩ := except_bind_eq_ok.1 h
  simp only at h
  split_ifs at h with hexceeds
  · obtain ⟨⟨sourceNames', targetNames'⟩, hspan', h⟩ := except_bind_eq_ok.1 h
    simp only at h
    have hsub' : ∀ f ∈ (c.innerSources (levels.getD level []) eligible).take 1,
        AtLevel files cfId level f := fun f hf => hsub f (mem_of_mem_take hf)
    split at h
    next source splitKey hcut =>
      -- The source is cut in place.
      cases h
      have hsource : AtLevel files cfId level source := by
        split_ifs at hcut
        obtain ⟨s, hs, hcut⟩ := Option.bind_eq_some_iff.1 hcut
        obtain ⟨_, -, heq⟩ := Option.map_eq_some_iff.1 hcut
        cases heq
        exact hsub' source (mem_of_head? hs)
      obtain ⟨hmem, hcf, hsl⟩ := hsource
      refine ⟨rfl, hsl, .inr ⟨[source], by simp [sourceFragmentationPlan], rfl, ?_, ?_, ?_, rfl⟩⟩
      · show 0 < source.level
        rw [hsl]
        exact hpos
      · intro f hf
        rw [mem_singleton.1 hf]
        exact ⟨hmem, hcf, rfl⟩
      · intro n
        simp [sourceFragmentationPlan, eq_comm]
    next =>
      obtain ⟨hcf, hsource, hplan⟩ := hmerge _ hsub' _ _ hspan' h
      exact ⟨hcf, hsource, .inl hplan⟩
  · obtain ⟨hcf, hsource, hplan⟩ := hmerge _ hsub _ _ hspan h
    exact ⟨hcf, hsource, .inl hplan⟩

/-- What a repair selects. -/
theorem of_pickRepairCompaction (h : c.pickRepairCompaction files cfId = .ok (some plan)) :
    plan.cfId = cfId ∧ ∃ sources, RewritePlan files plan sources := by
  rw [pickRepairCompaction] at h
  obtain ⟨levels?, hlevels, h⟩ := except_bind_eq_ok.1 h
  match levels?, hlevels, h with
  | none, _, h => cases h
  | some levels, hlevels, h =>
    simp only [pure, Except.pure, Except.ok.injEq] at h
    obtain ⟨level, -, h⟩ := exists_of_findSome?_eq_some h
    split_ifs at h with hzero
    obtain ⟨component, -, rfl⟩ := Option.map_eq_some_iff.1 h
    refine ⟨rfl, (levels.getD level []).filter
      (·.name ∈ namesAt (levels.getD level []) component), by simp, rfl, Nat.pos_of_ne_zero hzero,
      fun f hf => ?_, fun n => ?_, rfl⟩
    · exact (mem_validatedLevels hlevels).1 (mem_filter.1 hf).1
    · constructor
      · intro hn
        obtain ⟨index, -, hindex⟩ := mem_filterMap.1 hn
        obtain ⟨f, hf, rfl⟩ := Option.map_eq_some_iff.1 hindex
        exact ⟨f, mem_filter.2 ⟨mem_of_getElem? hf, by simpa using hn⟩, rfl⟩
      · rintro ⟨f, hf, rfl⟩
        simpa using (mem_filter.1 hf).2

end Compactor

end Midge
