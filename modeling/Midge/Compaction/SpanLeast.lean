import Midge.Compaction.SpanClosure

/-!
# The overlap span is the least closed one

A selection of target files is closed if no other target file meets the hull of the sources and
the selected files (`HullClosed`). In a level whose files share endpoints at most, the overlap
span of a merge is closed, and every closed selection has all of its files
(`completeOverlapSpan_least`): the span starts with the files that meet the sources, and only
takes a further file when it meets the hull so far.
-/

namespace Midge

open Intervals List Option OverlapSpan

/-! ## Hulls -/

/-- The least and the greatest key of the files. -/
def IsHull (files : List FileMeta) (lower upper : Key) : Prop :=
  IsLeast {a | ∃ f ∈ files, f.smallestKey = some a} lower ∧
    IsGreatest {b | ∃ f ∈ files, f.largestKey = some b} upper

/-- No other target file meets the hull of the sources and the selected files. -/
def HullClosed (sources targets selected : List FileMeta) : Prop :=
  ∃ lower upper, IsHull (sources ++ selected) lower upper ∧
    ∀ f ∈ targets, f ∉ selected → meetsSpan lower upper f = false

/-- Each of the files has both of its bounds. -/
def HaveBounds (files : List FileMeta) : Prop :=
  ∀ f ∈ files, f.smallestKey.isSome ∧ f.largestKey.isSome

section Hull

variable {files : List FileMeta} {lower upper : Key}

/-- Reading a bound of each of the files. -/
theorem mapM_bound {bound : FileMeta → Option Key} {error : FileMeta → MidgeError}
    (h : ∀ f ∈ files, (bound f).isSome) :
    files.mapM (fun f => (bound f).elim (Except.error (error f)) Except.ok) =
      Except.ok (files.filterMap bound) := by
  induction files with
  | nil => rfl
  | cons f files ih =>
    obtain ⟨hf, hfiles⟩ := forall_mem_cons.1 h
    obtain ⟨key, hkey⟩ := isSome_iff_exists.1 hf
    rw [mapM_cons, ih hfiles, filterMap_cons_some hkey, hkey]
    rfl

/-- Files with bounds have a hull. -/
theorem exists_smallestAndLargest (hne : files ≠ []) (hbounded : HaveBounds files) :
    ∃ lower upper, smallestAndLargest files = .ok (lower, upper) ∧ IsHull files lower upper := by
  obtain ⟨f, hf⟩ := exists_mem_of_ne_nil files hne
  obtain ⟨hsmallest, hlargest⟩ := hbounded f hf
  obtain ⟨a, ha⟩ := isSome_iff_exists.1 hsmallest
  obtain ⟨b, hb⟩ := isSome_iff_exists.1 hlargest
  obtain ⟨lower, hlower⟩ : ∃ lower, (files.filterMap FileMeta.smallestKey).min? = some lower :=
    isSome_iff_exists.1 (isSome_min?_of_mem (mem_filterMap.2 ⟨f, hf, ha⟩))
  obtain ⟨upper, hupper⟩ : ∃ upper, (files.filterMap FileMeta.largestKey).max? = some upper :=
    isSome_iff_exists.1 (isSome_max?_of_mem (mem_filterMap.2 ⟨f, hf, hb⟩))
  refine ⟨lower, upper, ?_, ?_, ?_⟩
  · rw [smallestAndLargest, mapM_bound fun f hf => (hbounded f hf).1,
      mapM_bound fun f hf => (hbounded f hf).2]
    simp only [bind, Except.bind, hlower, hupper, elim_some, pure, Except.pure]
  · obtain ⟨hmem, hle⟩ := min?_eq_some_iff.1 hlower
    exact ⟨mem_filterMap.1 hmem, fun a ha => hle a (mem_filterMap.2 ha)⟩
  · obtain ⟨hmem, hle⟩ := max?_eq_some_iff.1 hupper
    exact ⟨mem_filterMap.1 hmem, fun b hb => hle b (mem_filterMap.2 hb)⟩

/-- The keys of the files have a smallest and a largest one if there are files, with bounds. -/
theorem of_smallestAndLargest_eq_ok (h : smallestAndLargest files = .ok (lower, upper)) :
    files ≠ [] ∧ HaveBounds files ∧ IsHull files lower upper := by
  have hne : files ≠ [] := by
    rintro rfl
    cases h
  have hbounded : HaveBounds files := fun f hf => by
    obtain ⟨a, b, ha, hb, -⟩ := of_smallestAndLargest h f hf
    simp [ha, hb]
  obtain ⟨lower', upper', heq, hhull⟩ := exists_smallestAndLargest hne hbounded
  rw [h] at heq
  cases heq
  exact ⟨hne, hbounded, hhull⟩

end Hull

/-! ## Every closed selection has the span -/

variable {minKey maxKey : Key} {f : FileMeta}

section Least

variable {targetFiles ordered selected : List FileMeta} {lower upper : Key} {span : OverlapSpan}

/-- The span lies in a selection, and its hull in that of the selection. -/
structure SpanWithin (ordered selected : List FileMeta) (lower upper : Key) (span : OverlapSpan) :
    Prop where
  lower : lower ≤ span.closureMin
  upper : span.closureMax ≤ upper
  mem : ∀ i f, ordered[i]? = some f → span.first ≤ i → i ≤ span.last → f ∈ selected

/-- The hull has all the selected files, and meets no other one. -/
structure ClosedWithin (files selected : List FileMeta) (lower upper : Key) : Prop where
  within : ∀ f ∈ selected, (∀ a ∈ f.smallestKey, lower ≤ a) ∧ ∀ b ∈ f.largestKey, b ≤ upper
  other : ∀ f ∈ files, f ∉ selected → meetsSpan lower upper f = false

/-- A file that meets a smaller hull has been selected. -/
theorem ClosedWithin.mem (h : ClosedWithin ordered selected lower upper) (hf : f ∈ ordered)
    (hmin : lower ≤ minKey) (hmax : maxKey ≤ upper) (hmeets : meetsSpan minKey maxKey f = true) :
    f ∈ selected := by
  by_contra hno
  have hother := h.other f hf hno
  simp only [meetsSpan, Bool.and_eq_true, Option.any_eq_true, decide_eq_true_eq] at hmeets
  obtain ⟨⟨a, ha, hle⟩, b, hb, hge⟩ := hmeets
  simp only [meetsSpan, ha, hb, Option.any_some, Bool.and_eq_false_iff, decide_eq_false_iff_not,
    not_le] at hother
  rcases hother with hlt | hlt
  · exact absurd (hle.trans hmax) (not_le.2 hlt)
  · exact absurd (hmin.trans hge) (not_le.2 hlt)

/-- Including a selected file keeps the hull within that of the selection. -/
theorem ClosedWithin.include (hclosed : ClosedWithin ordered selected lower upper) {f : FileMeta}
    (hf : f ∈ selected) (hlower : lower ≤ span.closureMin) (hupper : span.closureMax ≤ upper) :
    lower ≤ (span.include f).closureMin ∧ (span.include f).closureMax ≤ upper := by
  obtain ⟨hmin, hmax⟩ := hclosed.within f hf
  constructor
  · cases hs : f.smallestKey with
    | none => simpa [OverlapSpan.include, hs] using hlower
    | some a => simpa [OverlapSpan.include, hs] using ⟨hlower, hmin a hs⟩
  · cases hl : f.largestKey with
    | none => simpa [OverlapSpan.include, hl] using hupper
    | some b => simpa [OverlapSpan.include, hl] using ⟨hupper, hmax b hl⟩

/-- Including a selected file next to the span. -/
theorem SpanWithin.include (h : SpanWithin ordered selected lower upper span)
    (hclosed : ClosedWithin ordered selected lower upper) {f : FileMeta} {first last n : ℕ}
    (hget : ordered[n]? = some f) (hf : f ∈ selected)
    (hrange : ∀ i, first ≤ i → i ≤ last → i = n ∨ (span.first ≤ i ∧ i ≤ span.last)) :
    SpanWithin ordered selected lower upper
      ({ span with first := first, last := last }.include f) := by
  obtain ⟨hlower, hupper⟩ := @ClosedWithin.include _ _ _ _
    { span with first := first, last := last } hclosed _ hf h.lower h.upper
  refine ⟨hlower, hupper, fun i g hg hi hi' => ?_⟩
  rcases hrange i hi hi' with rfl | ⟨hi, hi'⟩
  · cases hget.symm.trans hg
    exact hf
  · exact h.mem i g hg hi hi'

/-- The files in key order, each of which ends before the later ones start. -/
structure KeyOrdered (ordered : List FileMeta) : Prop where
  range : ∀ f ∈ ordered, ∃ i, f.HasRange i
  ends : ordered.Pairwise fun f g => ∀ i j, f.HasRange i → g.HasRange j → i.2 ≤ j.1

theorem ApartLevel.keyOrdered (hlevel : ApartLevel targetFiles) : KeyOrdered
    (targetFiles.insertionSort fun left right => targetOrder left ≤ targetOrder right) :=
  ⟨fun f hf => hlevel.range f ((mem_insertionSort _).1 hf), pairwise_targetOrder hlevel⟩

/-- A file before another one starts and ends before it does. -/
theorem KeyOrdered.le (h : KeyOrdered ordered) {n m : ℕ} {g : FileMeta} (hf : ordered[n]? = some f)
    (hg : ordered[m]? = some g) (hlt : n < m) {i j : Key × Key} (hi : f.HasRange i)
    (hj : g.HasRange j) : i.2 ≤ j.1 := by
  obtain ⟨hn, rfl⟩ := List.getElem?_eq_some_iff.1 hf
  obtain ⟨hm, rfl⟩ := List.getElem?_eq_some_iff.1 hg
  exact pairwise_iff_getElem.1 h.ends n m hn hm hlt i j hi hj

theorem meetsSpan_of_hasRange {i : Key × Key} (hi : f.HasRange i) :
    meetsSpan minKey maxKey f = true ↔ i.1 ≤ maxKey ∧ minKey ≤ i.2 := by
  simp [meetsSpan, hi.1, hi.2.1]

/-- A file before the span that ends in its hull meets it. -/
theorem SpanHull.meets_before (hull : SpanHull ordered span) (hordered : KeyOrdered ordered)
    (hne : span.first ≠ 0) (hf : ordered[span.first - 1]? = some f)
    (hends : f.largestKey.any (span.closureMin ≤ ·) = true) :
    meetsSpan span.closureMin span.closureMax f = true := by
  have hrange := hull.le
  have hlen := hull.lt
  obtain ⟨i, hi⟩ := hordered.range f (mem_of_getElem? hf)
  have hfirst := getElem?_eq_getElem (show span.first < ordered.length by omega)
  obtain ⟨j, hj⟩ := hordered.range _ (mem_of_getElem? hfirst)
  have hwithin := (hull.within _ _ hfirst le_rfl hull.le).2 j.2 hj.2.1
  have hle := hordered.le hf hfirst (by omega) hi hj
  rw [meetsSpan_of_hasRange hi]
  exact ⟨hi.2.2.trans (hle.trans (hj.2.2.trans hwithin)), by simpa [hi.2.1] using hends⟩

/-- A file after the span that starts in its hull meets it. -/
theorem SpanHull.meets_after (hull : SpanHull ordered span) (hordered : KeyOrdered ordered)
    (hf : ordered[span.last + 1]? = some f)
    (hstarts : f.smallestKey.any (· ≤ span.closureMax) = true) :
    meetsSpan span.closureMin span.closureMax f = true := by
  obtain ⟨i, hi⟩ := hordered.range f (mem_of_getElem? hf)
  have hlast := getElem?_eq_getElem hull.lt
  obtain ⟨j, hj⟩ := hordered.range _ (mem_of_getElem? hlast)
  have hwithin := (hull.within _ _ hlast hull.le le_rfl).1 j.1 hj.1
  have hle := hordered.le hlast hf (by omega) hj hi
  rw [meetsSpan_of_hasRange hi]
  exact ⟨by simpa [hi.1] using hstarts, hwithin.trans (hj.2.2.trans (hle.trans hi.2.2))⟩

/-- A closed selection that has the span has all the files that the loop adds. -/
theorem SpanWithin.extendSpan {fuel : ℕ} (hordered : KeyOrdered ordered)
    (hclosed : ClosedWithin ordered selected lower upper) (hull : SpanHull ordered span)
    (h : SpanWithin ordered selected lower upper span) :
    SpanWithin ordered selected lower upper (extendSpan ordered fuel span) := by
  induction fuel generalizing span with
  | zero => exact h
  | succ fuel ih =>
    have hle := hull.le
    have hlt := hull.lt
    rw [Midge.extendSpan]
    split
    next f hf =>
      obtain ⟨hf, hends⟩ := filter_eq_some_iff.1 hf
      split_ifs at hf with hne
      have hmem := hclosed.mem (mem_of_getElem? hf) h.lower h.upper
        (hull.meets_before hordered hne hf hends)
      exact ih (hull.include hf (by omega) (by omega) hlt) (h.include hclosed hf hmem (by omega))
    next =>
      split
      next f hf =>
        obtain ⟨hf, hstarts⟩ := filter_eq_some_iff.1 hf
        have hmem := hclosed.mem (mem_of_getElem? hf) h.lower h.upper
          (hull.meets_after hordered hf hstarts)
        have hlast := (List.getElem?_eq_some_iff.1 hf).1
        exact ih (hull.include hf (by omega) (by omega) hlast)
          (h.include hclosed hf hmem (by omega))
      next => exact h

/-- The hull of selected files lies in that of the selection. -/
theorem foldl_include_within (hclosed : ClosedWithin ordered selected lower upper)
    {files : List FileMeta} (hfiles : ∀ f ∈ files, f ∈ selected)
    (hlower : lower ≤ span.closureMin) (hupper : span.closureMax ≤ upper) :
    lower ≤ (files.foldl OverlapSpan.include span).closureMin ∧
      (files.foldl OverlapSpan.include span).closureMax ≤ upper := by
  induction files generalizing span with
  | nil => exact ⟨hlower, hupper⟩
  | cons f files ih =>
    obtain ⟨hf, hfiles⟩ := forall_mem_cons.1 hfiles
    obtain ⟨hlower, hupper⟩ := hclosed.include hf hlower hupper
    exact ih hfiles hlower hupper

/-- The files between two that meet the keys meet them. -/
theorem KeyOrdered.meets_between (h : KeyOrdered ordered) {n m k : ℕ} {g e : FileMeta}
    (hf : ordered[n]? = some f) (hg : ordered[m]? = some g) (he : ordered[k]? = some e)
    (hfmeets : meetsSpan minKey maxKey f = true) (hgmeets : meetsSpan minKey maxKey g = true)
    (hnk : n ≤ k) (hkm : k ≤ m) : meetsSpan minKey maxKey e = true := by
  rcases hnk.eq_or_lt with rfl | hnk
  · cases hf.symm.trans he
    exact hfmeets
  rcases hkm.eq_or_lt with rfl | hkm
  · cases hg.symm.trans he
    exact hgmeets
  obtain ⟨i, hi⟩ := h.range f (mem_of_getElem? hf)
  obtain ⟨j, hj⟩ := h.range g (mem_of_getElem? hg)
  obtain ⟨r, hr⟩ := h.range e (mem_of_getElem? he)
  rw [meetsSpan_of_hasRange hi] at hfmeets
  rw [meetsSpan_of_hasRange hj] at hgmeets
  rw [meetsSpan_of_hasRange hr]
  exact ⟨hr.2.2.trans ((h.le he hg hkm hr hj).trans hgmeets.1),
    hfmeets.2.trans ((h.le hf he hnk hi hr).trans hr.2.2)⟩

/-- Every closed selection has all the files of the span. -/
theorem overlapSpan_least (hlevel : ApartLevel targetFiles)
    (hclosed : ClosedWithin targetFiles selected lower upper) (hmin : lower ≤ minKey)
    (hmax : maxKey ≤ upper) : ∀ f ∈ overlapSpan targetFiles minKey maxKey, f ∈ selected := by
  have hordered := hlevel.keyOrdered
  rw [overlapSpan]
  set ordered := targetFiles.insertionSort fun left right => targetOrder left ≤ targetOrder right
  replace hclosed : ClosedWithin ordered selected lower upper :=
    ⟨hclosed.within, fun f hf => hclosed.other f ((mem_insertionSort _).1 hf)⟩
  intro f hf
  split at hf
  next first last hfirst hlast =>
    have hhull := spanHull_of_findIdx? hfirst hlast rfl
    obtain ⟨hfirst, hfmeets, -⟩ := findIdx?_eq_some_iff_getElem.1 hfirst
    obtain ⟨n, hn, rfl⟩ := Option.map_eq_some_iff.1 hlast
    obtain ⟨hlen, hlmeets, -⟩ := findIdx?_eq_some_iff_getElem.1 hn
    rw [length_reverse] at hlen
    rw [getElem_reverse] at hlmeets
    -- The files from the first to the last that meet the keys have been selected.
    have hmem : ∀ i e, ordered[i]? = some e → first ≤ i → i ≤ ordered.length - 1 - n →
        e ∈ selected := fun i e he hi hi' =>
      hclosed.mem (mem_of_getElem? he) hmin hmax (hordered.meets_between
        (getElem?_eq_getElem hfirst) (getElem?_eq_getElem (by omega)) he hfmeets hlmeets
        hi hi')
    set start : OverlapSpan := ⟨first, ordered.length - 1 - n, minKey, maxKey⟩
    obtain ⟨hf₁, hf₂⟩ := foldl_include_first_last (start.files ordered) start
    have hstart : ∀ e ∈ start.files ordered, e ∈ selected := fun e he => by
      obtain ⟨i, hi, hi₁, hi₂⟩ := exists_of_mem_files he
      exact hmem i e hi hi₁ hi₂
    obtain ⟨hlower, hupper⟩ :=
      @foldl_include_within _ _ _ _ start hclosed _ hstart hmin hmax
    have hwithin : SpanWithin ordered selected lower upper
        ((start.files ordered).foldl OverlapSpan.include start) :=
      ⟨hlower, hupper, fun i e he hi hi' => hmem i e he (hf₁.symm.le.trans hi) (hi'.trans hf₂.le)⟩
    obtain ⟨i, hi, hi₁, hi₂⟩ := exists_of_mem_files hf
    exact (hwithin.extendSpan hordered hclosed hhull).mem i f hi hi₁ hi₂
  next => cases hf

end Least

/-! ## The span of a merge -/

variable {targets : List FileMeta}

/-- A selection that is closed, in terms of its hull. -/
theorem HullClosed.closedWithin {sources selected : List FileMeta}
    (h : HullClosed sources targets selected) (hsources : IsHull sources minKey maxKey) :
    ∃ lower upper, ClosedWithin targets selected lower upper ∧ lower ≤ minKey ∧
      maxKey ≤ upper := by
  obtain ⟨lower, upper, ⟨hlower, hupper⟩, hother⟩ := h
  obtain ⟨⟨⟨f, hf, hmin⟩, -⟩, ⟨g, hg, hmax⟩, -⟩ := hsources
  refine ⟨lower, upper, ⟨fun f hf => ⟨fun a ha => ?_, fun b hb => ?_⟩, hother⟩, ?_, ?_⟩
  · exact hlower.2 ⟨f, mem_append_right _ hf, ha⟩
  · exact hupper.2 ⟨f, mem_append_right _ hf, hb⟩
  · exact hlower.2 ⟨f, mem_append_left _ hf, hmin⟩
  · exact hupper.2 ⟨g, mem_append_left _ hg, hmax⟩

theorem overlapSpan_subperm : (overlapSpan targets minKey maxKey).Subperm targets := by
  rw [overlapSpan]
  split
  next =>
    exact ((take_sublist _ _).trans (drop_sublist _ _)).subperm.trans
      (perm_insertionSort _ _).subperm
  next => exact nil_subperm

/-- The overlap span is closed. -/
theorem hullClosed_overlapSpan {sources : List FileMeta} (hlevel : ApartLevel targets)
    (hbounded : HaveBounds sources) (hsources : IsHull sources minKey maxKey) :
    HullClosed sources targets (overlapSpan targets minKey maxKey) := by
  obtain ⟨lower, upper, hlower, hupper, hwithin, hothers⟩ :=
    @exists_hull_overlapSpan targets minKey maxKey hlevel
  set selected := overlapSpan targets minKey maxKey
  have hne : sources ++ selected ≠ [] := by
    obtain ⟨⟨⟨f, hf, -⟩, -⟩, -⟩ := hsources
    exact ne_nil_of_mem (mem_append_left _ hf)
  have hall : HaveBounds (sources ++ selected) := by
    intro f hf
    rcases mem_append.1 hf with hf | hf
    · exact hbounded f hf
    · obtain ⟨i, hi⟩ := hlevel.range f (overlapSpan_subset f hf)
      simp [hi.1, hi.2.1]
  obtain ⟨a, b, -, ha, hb⟩ := exists_smallestAndLargest hne hall
  refine ⟨a, b, ⟨ha, hb⟩, fun f hf hno => ?_⟩
  have hla : lower ≤ a := by
    obtain ⟨⟨g, hg, hga⟩, -⟩ := ha
    rcases mem_append.1 hg with hg | hg
    · exact hlower.trans (hsources.1.2 ⟨g, hg, hga⟩)
    · exact (hwithin g hg).1 a hga
  have hbu : b ≤ upper := by
    obtain ⟨⟨g, hg, hgb⟩, -⟩ := hb
    rcases mem_append.1 hg with hg | hg
    · exact (hsources.2.2 ⟨g, hg, hgb⟩).trans hupper
    · exact (hwithin g hg).2 b hgb
  obtain ⟨i, hi⟩ := hlevel.range f hf
  rw [Bool.eq_false_iff, ne_eq, meetsSpan_of_hasRange hi]
  rintro ⟨hstart, hstop⟩
  rcases hothers f hf hno i hi with hlt | hlt
  · exact absurd (hla.trans hstop) (not_le.2 hlt)
  · exact absurd (hstart.trans hbu) (not_le.2 hlt)

namespace Compactor

variable (c : Compactor) (sources targets : List FileMeta) (cfId sourceLevel targetLevel : ℕ)

/-- Sources with bounds, within the limit on streams, have an overlap span. It has every target
    file that meets the hull of the sources. In a level whose files share endpoints at most it is
    the least selection that is closed. -/
theorem completeOverlapSpan_least :
    ((∃ names, c.completeOverlapSpan sources targets cfId sourceLevel targetLevel = .ok names) ↔
      sources ≠ [] ∧ HaveBounds sources ∧
        c.validateSourceFanIn (dedup (sources.map FileMeta.name)) cfId sourceLevel targetLevel =
          .ok ()) ∧
    ∀ sourceNames targetNames,
      c.completeOverlapSpan sources targets cfId sourceLevel targetLevel =
        .ok (sourceNames, targetNames) →
      ∃ minKey maxKey selected, IsHull sources minKey maxKey ∧
        targetNames = selected.map FileMeta.name ∧ selected.Subperm targets ∧
        (∀ f ∈ targets, meetsSpan minKey maxKey f = true → f ∈ selected) ∧
        (ApartLevel targets → HullClosed sources targets selected ∧
          ∀ other, HullClosed sources targets other → selected ⊆ other) := by
  constructor
  · constructor
    · rintro ⟨names, h⟩
      obtain ⟨⟨minKey, maxKey⟩, hhull, h⟩ := except_bind_eq_ok.1 h
      obtain ⟨hne, hbounded, -⟩ := of_smallestAndLargest_eq_ok hhull
      obtain ⟨_, hfan, -⟩ := except_bind_eq_ok.1 h
      exact ⟨hne, hbounded, hfan⟩
    · rintro ⟨hne, hbounded, hfan⟩
      obtain ⟨minKey, maxKey, hhull, -⟩ := exists_smallestAndLargest hne hbounded
      exact ⟨_, except_bind_eq_ok.2 ⟨_, hhull, except_bind_eq_ok.2 ⟨_, hfan, rfl⟩⟩⟩
  · intro sourceNames targetNames h
    obtain ⟨⟨minKey, maxKey⟩, hhull, h⟩ := except_bind_eq_ok.1 h
    obtain ⟨-, hbounded, hsources⟩ := of_smallestAndLargest_eq_ok hhull
    obtain ⟨_, -, h⟩ := except_bind_eq_ok.1 h
    cases h
    refine ⟨minKey, maxKey, overlapSpan targets minKey maxKey, hsources, rfl, ?_,
      fun f hf hmeets => mem_overlapSpan hf hmeets, fun hlevel => ⟨?_, fun other hother => ?_⟩⟩
    · exact overlapSpan_subperm
    · exact hullClosed_overlapSpan hlevel hbounded hsources
    · obtain ⟨lower, upper, hclosed, hmin, hmax⟩ := hother.closedWithin hsources
      exact fun f hf => overlapSpan_least hlevel hclosed hmin hmax f hf

end Compactor

end Midge
