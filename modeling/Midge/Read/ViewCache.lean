import Midge.Metadata.Moves
import Midge.Read.PointRead

/-!
# The catalogs of the families

The event loop keeps a catalog for each family. After an edit of the manifest, the next read
rebuilds those of the families whose files have changed; entries that differ in nothing that
a catalog depends on leave it as it is.

Whatever has been edited and read before, the catalog that a read gets leaves out no file
that holds the key, or a key of the range (`viewFor_complete`). The files of a run of L0 are
disjoint. Those of an indexed level may share an endpoint (`level_shares_endpoint`).
-/

namespace Midge

open List SstReadView

/-! ## The cache -/

/-- Nothing that a catalog depends on differs between the entries. -/
def sameForReads (left right : FileMeta) : Bool :=
  sameIdentity left right && decide (left.sstSeq = right.sstSeq) &&
    decide (left.sublevel = right.sublevel)

/-- The catalogs by family, with the files that each of them stands for. -/
structure SstReadViewCache where
  dirty : Bool := true
  views : ℕ → Option SstReadView := fun _ => none
  files : ℕ → Option (List FileMeta) := fun _ => none

namespace SstReadViewCache

/-- The manifest has been edited. -/
def invalidate (cache : SstReadViewCache) : SstReadViewCache := { cache with dirty := true }

/-- The files of each family that has files or a catalog. -/
def grouped (cache : SstReadViewCache) (files : List FileMeta) (cfId : ℕ) :
    Option (List FileMeta) :=
  if files.any (·.cfId = cfId) || (cache.views cfId).isSome then
    some (files.filter (·.cfId = cfId))
  else none

/-- The files are those of before. -/
def unchanged (previous files : List FileMeta) : Bool :=
  decide (previous.length = files.length) &&
    (previous.zip files).all fun pair => sameForReads pair.1 pair.2

/-- The catalog of a family after a rebuild. -/
def refreshedView (cache : SstReadViewCache) (files : List FileMeta) (cfId : ℕ) :
    Option SstReadView :=
  match cache.grouped files cfId with
  | none => cache.views cfId
  | some group =>
    if (cache.files cfId).any (unchanged · group) then cache.views cfId else some (fromShared group)

/-- Rebuild what an edit of the manifest has changed. -/
def refreshIfDirty (cache : SstReadViewCache) (files : List FileMeta) : SstReadViewCache :=
  if cache.dirty then
    { dirty := false, views := cache.refreshedView files, files := cache.grouped files }
  else cache

/-- The catalog of a family for a read. -/
def viewFor (cache : SstReadViewCache) (files : List FileMeta) (cfId : ℕ) :
    SstReadView × SstReadViewCache :=
  let cache := cache.refreshIfDirty files
  match cache.views cfId with
  | some view => (view, cache)
  | none =>
    let view := SstReadView.new cfId []
    (view, { cache with
      views := Function.update cache.views cfId (some view)
      files := Function.update cache.files cfId (some ((cache.files cfId).getD [])) })

/-! ## Edits and reads -/

/-- An edit of the manifest, with its files afterwards, or a read of a family. -/
inductive Event
  | edit (files : List FileMeta)
  | read (cfId : ℕ)

/-- The files of the manifest, and the cache, after an event. -/
def step (state : List FileMeta × SstReadViewCache) : Event → List FileMeta × SstReadViewCache
  | .edit files => (files, state.2.invalidate)
  | .read cfId => (state.1, (state.2.viewFor state.1 cfId).2)

/-- The catalogs stand for files that are, as far as they tell, those of the cache; unless
    there has been an edit, these are the files of the manifest. -/
structure Consistent (cache : SstReadViewCache) (files : List FileMeta) : Prop where
  view : ∀ cfId group, cache.files cfId = some group → ∃ base,
    cache.views cfId = some (fromShared base) ∧ Forall₂ (fun f g => sameForReads f g) base group
  known : ∀ cfId, cache.files cfId = none → cache.views cfId = none
  fresh : cache.dirty = false → ∀ cfId,
    (cache.files cfId).getD [] = files.filter (·.cfId = cfId)

variable {cache : SstReadViewCache} {files : List FileMeta}

theorem consistent_new (files : List FileMeta) : Consistent {} files := by
  constructor <;> simp

theorem sameForReads_iff {f g : FileMeta} : sameForReads f g ↔
    sameIdentity f g ∧ f.sstSeq = g.sstSeq ∧ f.sublevel = g.sublevel := by
  simp [sameForReads, and_assoc]

theorem sameForReads_refl (f : FileMeta) : sameForReads f f := by
  simp [sameForReads_iff, sameIdentity_iff]

theorem sameForReads_trans {f g h : FileMeta} (hfg : sameForReads f g) (hgh : sameForReads g h) :
    sameForReads f h := by
  simp only [sameForReads_iff, sameIdentity_iff] at *
  simp_all

theorem forall₂_sameForReads_trans {l l' l'' : List FileMeta}
    (h : Forall₂ (fun f g => sameForReads f g) l l')
    (h' : Forall₂ (fun f g => sameForReads f g) l' l'') :
    Forall₂ (fun f g => sameForReads f g) l l'' := by
  induction h generalizing l'' with
  | nil => exact h'
  | cons hfg _ ih =>
    cases h' with
    | cons hgh hrest => exact .cons (sameForReads_trans hfg hgh) (ih hrest)

theorem exists_sameForReads {l l' : List FileMeta} {g : FileMeta}
    (h : Forall₂ (fun f g => sameForReads f g) l l') (hg : g ∈ l') : ∃ f ∈ l, sameForReads f g := by
  induction h with
  | nil => cases hg
  | cons hfg _ ih =>
    rcases mem_cons.1 hg with rfl | hg
    · exact ⟨_, .head _, hfg⟩
    · obtain ⟨f, hf, hfg⟩ := ih hg
      exact ⟨f, .tail _ hf, hfg⟩

theorem unchanged_iff {previous group : List FileMeta} :
    unchanged previous group ↔ Forall₂ (fun f g => sameForReads f g) previous group := by
  rw [unchanged, forall₂_iff_zip, Bool.and_eq_true, decide_eq_true_eq, all_eq_true]
  exact and_congr_right fun _ => ⟨fun h a b hab => h (a, b) hab, fun h pair hpair => h hpair⟩

theorem Consistent.refreshIfDirty (h : cache.Consistent files) :
    (cache.refreshIfDirty files).Consistent files := by
  rw [SstReadViewCache.refreshIfDirty]
  split_ifs with hdirty
  · refine ⟨fun cfId group hgroup => ?_, fun cfId hnone => ?_, fun _ cfId => ?_⟩
    · have hgroup : cache.grouped files cfId = some group := hgroup
      simp only [refreshedView, hgroup]
      split_ifs with hsame
      · obtain ⟨previous, hprevious, hsame⟩ := Option.any_eq_true .. |>.1 hsame
        obtain ⟨base, hview, hbase⟩ := h.view cfId previous hprevious
        exact ⟨base, hview, forall₂_sameForReads_trans hbase (unchanged_iff.1 hsame)⟩
      · exact ⟨group, rfl, forall₂_same.2 fun f _ => sameForReads_refl f⟩
    · have hnone : cache.grouped files cfId = none := hnone
      simp only [refreshedView, hnone]
      rw [grouped] at hnone
      split_ifs at hnone with hany
      rw [Bool.or_eq_true, not_or, Option.not_isSome_iff_eq_none] at hany
      exact hany.2
    · simp only [grouped]
      split_ifs with hany
      · rfl
      · rw [eq_comm, Option.getD_none, filter_eq_nil_iff]
        rw [Bool.or_eq_true, not_or, Bool.not_eq_true, any_eq_false] at hany
        exact hany.1
  · exact h

/-- A read gets the catalog of the files of the family, as far as it tells. -/
theorem Consistent.viewFor (h : cache.Consistent files) (cfId : ℕ) :
    (cache.viewFor files cfId).2.Consistent files ∧ ∃ base,
      (cache.viewFor files cfId).1 = fromShared base ∧
        Forall₂ (fun f g => sameForReads f g) base (files.filter (·.cfId = cfId)) := by
  have hrefreshed := h.refreshIfDirty
  have hclean : (cache.refreshIfDirty files).dirty = false := by
    rw [SstReadViewCache.refreshIfDirty]
    split_ifs with hdirty
    exacts [rfl, by simpa using hdirty]
  rw [SstReadViewCache.viewFor]
  generalize cache.refreshIfDirty files = cache at *
  have hfresh := hrefreshed.fresh hclean
  cases hgroup : cache.files cfId with
  | some group =>
    obtain ⟨base, hview, hbase⟩ := hrefreshed.view cfId group hgroup
    have hgroup' := hfresh cfId
    rw [hgroup, Option.getD_some] at hgroup'
    simp only [hview]
    exact ⟨hrefreshed, base, rfl, hgroup' ▸ hbase⟩
  | none =>
    have hempty := hfresh cfId
    rw [hgroup, Option.getD_none] at hempty
    simp only [hrefreshed.known cfId hgroup, Option.getD_none]
    refine ⟨⟨fun cfId' group hgroup' => ?_, fun cfId' hnone => ?_, fun _ cfId' => ?_⟩, [], rfl,
      hempty ▸ .nil⟩
    · by_cases heq : cfId' = cfId
      · subst heq
        simp only [Function.update_self] at hgroup' ⊢
        cases hgroup'
        exact ⟨[], rfl, .nil⟩
      · simp only [Function.update_of_ne heq] at hgroup' ⊢
        exact hrefreshed.view cfId' group hgroup'
    · by_cases heq : cfId' = cfId
      · simp [heq] at hnone
      · simp only [Function.update_of_ne heq] at hnone ⊢
        exact hrefreshed.known cfId' hnone
    · by_cases heq : cfId' = cfId
      · simp only [heq, Function.update_self, Option.getD_some]
        exact hempty
      · simp only [Function.update_of_ne heq]
        exact hfresh cfId'

theorem Consistent.step {state : List FileMeta × SstReadViewCache} (h : state.2.Consistent state.1)
    (event : Event) : (step state event).2.Consistent (step state event).1 := by
  cases event with
  | edit files => exact ⟨h.view, h.known, nofun⟩
  | read cfId => exact (h.viewFor cfId).1

theorem Consistent.run {state : List FileMeta × SstReadViewCache} (h : state.2.Consistent state.1)
    (events : List Event) : (events.foldl SstReadViewCache.step state).2.Consistent
      (events.foldl SstReadViewCache.step state).1 := by
  induction events generalizing state with
  | nil => exact h
  | cons event events ih => exact ih (h.step event)

/-! ## What the catalog leaves out -/

/-- The key is in `[start, stop)`. -/
def InRange (start stop : Option Key) (key : Key) : Prop :=
  (∀ s ∈ start, s ≤ key) ∧ ∀ e ∈ stop, key < e

/-- All candidates for a range. -/
def candidateFiles (candidates : RangeCandidates) : List FileMeta :=
  candidates.l0.flatten ++ candidates.levels.flatMap fun level => level.ordered ++ level.fallback

variable {file : FileMeta} {d : SstContents} {key : Key}

theorem mem_pointCandidates (hfile : file ∈ files) (hd : Described file d) (hkey : d.Holds key) :
    file ∈ (fromShared files).pointCandidates key := by
  have hhold : mayHold key file = true := by
    by_contra hno
    exact hd.not_holds (by simpa using hno) hkey
  have hfiles := mem_files_fromShared.2 hfile
  rw [pointCandidates_eq]
  rw [SstReadView.files, mem_append, mem_flatMap] at hfiles
  rw [mem_append, mem_flatMap]
  rcases hfiles with h | ⟨level, hlevel, h⟩
  · exact .inl (mem_filter.2 ⟨h, hhold⟩)
  · refine .inr ⟨level, hlevel, ?_⟩
    rw [mem_append] at h ⊢
    exact h.imp_left fun h => mem_filter.2 ⟨h, hhold⟩

theorem mem_rangeCandidates {start stop : Option Key} (hfile : file ∈ files)
    (hd : Described file d) (hkey : d.Holds key) (hrange : InRange start stop key) :
    file ∈ candidateFiles ((fromShared files).rangeCandidates start stop) := by
  rw [candidateFiles, mem_append, mem_flatten, mem_flatMap]
  rcases mem_rangeCandidates_or start stop hfile with hl0 | hlevel | ⟨hcomplete, hout⟩
  · exact .inl hl0
  · exact .inr hlevel
  · -- The bounds of the file leave no room for the key.
    obtain ⟨lower, upper, hb⟩ := hasCompleteBounds_iff.1 hcomplete
    obtain ⟨-, hsmallest, hlargest, -⟩ := le_of_completeBounds hb
    obtain ⟨hlower, hupper⟩ := hd.of_holds hb hkey
    rcases hout with ⟨s, hs, hlt⟩ | ⟨e, he, hnot⟩
    · simp only [hlargest, Option.any_some, decide_eq_true_eq] at hlt
      exact absurd ((hrange.1 s hs).trans hupper) hlt.not_ge
    · simp only [hsmallest, Option.any_some, decide_eq_true_eq] at hnot
      exact absurd (hlower.trans_lt (hrange.2 e he)) hnot

theorem Described.congr {f g : FileMeta} (h : sameForReads f g) (hd : Described g d) :
    Described f d := by
  obtain ⟨-, -, -, -, -, hsk, hlk, hss, hls, hcomplete⟩ :=
    sameIdentity_iff.1 (sameForReads_iff.1 h).1
  refine ⟨fun lower upper hb => hd.keys lower upper ?_, hss ▸ hd.smallestSeq, hls ▸ hd.largestSeq⟩
  rwa [GrandparentOverlap.completeBounds, ← hsk, ← hlk, ← hcomplete]

/-- After any edits and reads, a read gets a catalog that leaves out no file of its family
    that holds the key, or a key of the range. The files of a run of L0 do not touch, and
    those of an indexed level each end at or before the start of the next. -/
theorem viewFor_complete (files₀ : List FileMeta) (events : List Event) (cfId : ℕ) :
    let state := events.foldl step (files₀, {})
    let view := (state.2.viewFor state.1 cfId).1
    (∀ file ∈ state.1, file.cfId = cfId → ∀ d, Described file d →
      (∀ key, d.Holds key → ∃ f ∈ view.pointCandidates key, sameForReads f file) ∧
      ∀ start stop key, InRange start stop key → d.Holds key →
        ∃ f ∈ candidateFiles (view.rangeCandidates start stop), sameForReads f file) ∧
    (∀ run ∈ view.l0Runs, SeparateRun run) ∧
    ∀ level ∈ view.levels, (∀ f ∈ level.2.ordered, hasCompleteBounds f) ∧
      Chained level.2.ordered := by
  intro state view
  have hstate : state.2.Consistent state.1 :=
    @Consistent.run (files₀, {}) (consistent_new files₀) events
  obtain ⟨-, base, hview, hsame⟩ := hstate.viewFor cfId
  have hview : view = fromShared base := hview
  rw [hview]
  refine ⟨fun file hfile hcf d hd => ?_, (buildL0Runs_spec _).1, fun level hlevel => ?_⟩
  · obtain ⟨f, hf, hffile⟩ := exists_sameForReads hsame
      (mem_filter.2 ⟨hfile, by simpa using hcf⟩)
    have hd' := Described.congr hffile hd
    exact ⟨fun key hkey => ⟨f, mem_pointCandidates hf hd' hkey, hffile⟩,
      fun start stop key hrange hkey => ⟨f, mem_rangeCandidates hf hd' hkey hrange, hffile⟩⟩
  · obtain ⟨n, -, rfl⟩ := mem_map.1 hlevel
    exact ⟨fun f => complete_of_mem_ordered, chained_ordered⟩

/-- Two files of an indexed level that share a key. -/
theorem level_shares_endpoint :
    let left : FileMeta := { name := "1.sst", level := 1, smallestKey := some [1]
                             largestKey := some [2], keyBoundsComplete := true }
    let right : FileMeta := { name := "2.sst", level := 1, smallestKey := some [2]
                              largestKey := some [3], keyBoundsComplete := true }
    (fromShared [left, right]).levels = [(1, ⟨[left, right], []⟩)] ∧
      (fromShared [left, right]).pointCandidates [2] = [left, right] := by
  decide

end SstReadViewCache

end Midge
