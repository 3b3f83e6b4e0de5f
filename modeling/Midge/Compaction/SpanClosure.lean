import Midge.Compaction.LayoutTiling
import Midge.Compaction.StrategySpec

/-!
# The overlap span is closed

The target files that a merge takes are those from the first to the last that
meet its sources, and those that touch the hull of what is taken. In a level
whose files share endpoints at most nothing else touches that hull
(`exists_hull_overlapSpan`): the loop of `extendSpan` stops at a file that does
not, and all the files beyond it lie further away.
-/

namespace Midge

open Intervals List OverlapSpan Option

/-- The span is in range, and its hull has all its files. -/
structure SpanHull (ordered : List FileMeta) (span : OverlapSpan) : Prop where
  le : span.first ≤ span.last
  lt : span.last < ordered.length
  within : ∀ i f, ordered[i]? = some f → span.first ≤ i → i ≤ span.last →
    (∀ a ∈ f.smallestKey, span.closureMin ≤ a) ∧ ∀ b ∈ f.largestKey, b ≤ span.closureMax

/-- The files next to the span do not touch its hull. -/
structure SpanClosed (ordered : List FileMeta) (span : OverlapSpan) : Prop where
  hull : SpanHull ordered span
  before : ∀ f, span.first ≠ 0 → ordered[span.first - 1]? = some f →
    ∀ b ∈ f.largestKey, b < span.closureMin
  after : ∀ f, ordered[span.last + 1]? = some f → ∀ a ∈ f.smallestKey, span.closureMax < a

/-- Including a file extends the hull to it. -/
theorem OverlapSpan.of_include (span : OverlapSpan) (f : FileMeta) :
    (span.include f).closureMin ≤ span.closureMin ∧
      span.closureMax ≤ (span.include f).closureMax ∧
      (∀ a ∈ f.smallestKey, (span.include f).closureMin ≤ a) ∧
      ∀ b ∈ f.largestKey, b ≤ (span.include f).closureMax := by
  obtain ⟨first, last, lo, hi⟩ := span
  cases hs : f.smallestKey <;> cases hl : f.largestKey <;> simp [OverlapSpan.include, hs, hl]

/-- Including a file next to the span. -/
theorem SpanHull.include {ordered : List FileMeta} {span : OverlapSpan} {f : FileMeta}
    (h : SpanHull ordered span) {first last n : ℕ} (hget : ordered[n]? = some f)
    (hrange : ∀ i, first ≤ i → i ≤ last → i = n ∨ (span.first ≤ i ∧ i ≤ span.last))
    (hle : first ≤ last) (hlt : last < ordered.length) :
    SpanHull ordered ({ span with first := first, last := last }.include f) := by
  obtain ⟨hmin, hmax, hfmin, hfmax⟩ :=
    of_include { span with first := first, last := last } f
  refine ⟨hle, hlt, fun i g hg hi hi' => ?_⟩
  rcases hrange i hi hi' with rfl | ⟨hi, hi'⟩
  · rw [hget, some.injEq] at hg
    exact hg ▸ ⟨hfmin, hfmax⟩
  · obtain ⟨h₁, h₂⟩ := h.within i g hg hi hi'
    exact ⟨fun a ha => hmin.trans (h₁ a ha), fun b hb => (h₂ b hb).trans hmax⟩

variable {ordered : List FileMeta} {span : OverlapSpan}

/-- The loop ends with a closed span: the fuel is enough for all the files. -/
theorem extendSpan_closed {fuel : ℕ} (h : SpanHull ordered span)
    (hfuel : ordered.length ≤ fuel + (span.last + 1 - span.first)) :
    SpanClosed ordered (extendSpan ordered fuel span) ∧
      (extendSpan ordered fuel span).closureMin ≤ span.closureMin ∧
      span.closureMax ≤ (extendSpan ordered fuel span).closureMax := by
  have hle := h.le
  have hlt := h.lt
  induction fuel generalizing span with
  | zero =>
    -- The span has all the files.
    refine ⟨⟨h, fun f hne => absurd (show span.first = 0 by omega) hne, fun f hf => ?_⟩, le_rfl,
      le_rfl⟩
    have hlast : span.last + 1 < ordered.length := (List.getElem?_eq_some_iff.1 hf).1
    omega
  | succ fuel ih =>
    rw [extendSpan]
    split
    next f hf =>
      obtain ⟨hf, -⟩ := Option.filter_eq_some_iff.1 hf
      split_ifs at hf with hne
      obtain ⟨hmin, hmax, -⟩ := OverlapSpan.of_include { span with first := span.first - 1 } f
      obtain ⟨hclosed, h₁, h₂⟩ := @ih ({ span with first := span.first - 1 }.include f)
        (h.include hf (by omega) (by omega) hlt) (by simp [OverlapSpan.include]; omega)
        (by simp [OverlapSpan.include]; omega) hlt
      exact ⟨hclosed, h₁.trans hmin, hmax.trans h₂⟩
    next hbefore =>
      split
      next f hf =>
        obtain ⟨hf, -⟩ := Option.filter_eq_some_iff.1 hf
        have hlast := (List.getElem?_eq_some_iff.1 hf).1
        obtain ⟨hmin, hmax, -⟩ := OverlapSpan.of_include { span with last := span.last + 1 } f
        obtain ⟨hclosed, h₁, h₂⟩ := @ih ({ span with last := span.last + 1 }.include f)
          (h.include hf (by omega) (by omega) hlast) (by simp [OverlapSpan.include]; omega)
          (by simp [OverlapSpan.include]; omega) hlast
        exact ⟨hclosed, h₁.trans hmin, hmax.trans h₂⟩
      next hafter =>
        refine ⟨⟨h, fun f hne hf b hb => ?_, fun f hf a ha => ?_⟩, le_rfl, le_rfl⟩
        · have hb : f.largestKey = some b := hb
          rw [if_neg hne, hf] at hbefore
          simpa [Option.filter_some, hb] using hbefore
        · have ha : f.smallestKey = some a := ha
          rw [hf] at hafter
          simpa [Option.filter_some, ha] using hafter

/-- Including the files of a span gives it a hull. -/
theorem foldl_include_hull (files : List FileMeta) (span : OverlapSpan) :
    (files.foldl OverlapSpan.include span).closureMin ≤ span.closureMin ∧
      span.closureMax ≤ (files.foldl OverlapSpan.include span).closureMax ∧
      ∀ f ∈ files, (∀ a ∈ f.smallestKey, (files.foldl OverlapSpan.include span).closureMin ≤ a) ∧
        ∀ b ∈ f.largestKey, b ≤ (files.foldl OverlapSpan.include span).closureMax := by
  induction files generalizing span with
  | nil => simp
  | cons f files ih =>
    obtain ⟨h₁, h₂, h₃⟩ := ih (span.include f)
    obtain ⟨hmin, hmax, hfmin, hfmax⟩ := of_include span f
    refine ⟨h₁.trans hmin, hmax.trans h₂, forall_mem_cons.2 ⟨⟨fun a ha => ?_, fun b hb => ?_⟩, h₃⟩⟩
    · exact h₁.trans (hfmin a ha)
    · exact (hfmax b hb).trans h₂

/-- The files of a span are those between its first and its last one. -/
theorem exists_of_mem_files {f : FileMeta} (hf : f ∈ span.files ordered) :
    ∃ i, ordered[i]? = some f ∧ span.first ≤ i ∧ i ≤ span.last := by
  obtain ⟨n, hn⟩ := mem_iff_getElem?.1 hf
  have hlt := (List.getElem?_eq_some_iff.1 hn).1
  rw [files, length_take] at hlt
  rw [files, getElem?_take_of_lt (by omega), getElem?_drop] at hn
  exact ⟨span.first + n, hn, by omega, by omega⟩

/-- The span from the first to the last file that meets the keys. -/
theorem spanHull_of_findIdx? {minKey maxKey : Key} {first last : ℕ}
    (hfirst : ordered.findIdx? (meetsSpan minKey maxKey) = some first)
    (hlast : (ordered.reverse.findIdx? (meetsSpan minKey maxKey)).map (ordered.length - 1 - ·) =
      some last) (hspan : span = ⟨first, last, minKey, maxKey⟩) :
    SpanHull ordered ((span.files ordered).foldl OverlapSpan.include span) := by
  obtain ⟨n, hn, hlast⟩ := map_eq_some_iff.1 hlast
  obtain ⟨hlen, hmeets, -⟩ := findIdx?_eq_some_iff_getElem.1 hn
  rw [length_reverse] at hlen
  rw [getElem_reverse] at hmeets
  obtain ⟨_, _, hleast⟩ := findIdx?_eq_some_iff_getElem.1 hfirst
  obtain ⟨hf, hl⟩ := foldl_include_first_last (span.files ordered) span
  obtain ⟨-, -, hfiles⟩ := foldl_include_hull (span.files ordered) span
  rw [hspan] at hf hl
  dsimp only at hf hl
  refine ⟨?_, ?_, fun i f hi hi₁ hi₂ => ?_⟩
  · rw [hspan, hf, hl]
    by_contra hlt
    exact hleast (ordered.length - 1 - n) (by omega) hmeets
  · rw [hspan, hl]
    omega
  · refine hfiles f (mem_files_of_between hi ?_ ?_)
    · rw [hspan] at hi₁ ⊢
      rwa [hf] at hi₁
    · rw [hspan] at hi₂ ⊢
      rwa [hl] at hi₂

/-! ## Levels of files apart -/

/-- The keys of the file lie between the two. -/
def FileMeta.HasRange (f : FileMeta) (i : Key × Key) : Prop :=
  f.smallestKey = some i.1 ∧ f.largestKey = some i.2 ∧ i.1 ≤ i.2

/-- Every file has a key range, and no two of them overlap in more than an endpoint. -/
structure ApartLevel (files : List FileMeta) : Prop where
  range : ∀ f ∈ files, ∃ i, f.HasRange i
  apart : files.Pairwise fun f g => ∀ i j, f.HasRange i → g.HasRange j → Apart i j

/-- The files of a tiling are apart. -/
theorem ApartLevel.of_tiling {files : List FileMeta}
    (hbounds : ∀ f ∈ files, ∃ i, GrandparentOverlap.completeBounds f = some i)
    (htiling : Tiling (keyIntervals files)) : ApartLevel files where
  range f hf := by
    obtain ⟨i, hi⟩ := hbounds f hf
    obtain ⟨-, hsmallest, hlargest, hle⟩ := le_of_completeBounds hi
    exact ⟨i, hsmallest, hlargest, hle⟩
  apart := by
    have hpairwise := pairwise_filterMap.1 htiling.apart
    refine (pairwise_iff_forall_sublist.2 fun {f g} hsub i j hi hj => ?_)
    have hcomplete : ∀ {f}, f ∈ files → ∀ i, f.HasRange i →
        GrandparentOverlap.completeBounds f = some i := by
      intro f hf i hi
      obtain ⟨i', hi'⟩ := hbounds f hf
      obtain ⟨-, hsmallest, hlargest, -⟩ := le_of_completeBounds hi'
      rw [hi', Prod.ext_iff.2 ⟨Option.some.inj (hsmallest.symm.trans hi.1),
        Option.some.inj (hlargest.symm.trans hi.2.1)⟩]
    exact pairwise_iff_forall_sublist.1 hpairwise hsub i (hcomplete (hsub.mem (by simp)) i hi)
      j (hcomplete (hsub.mem (by simp)) j hj)

section Level

variable {targetFiles : List FileMeta} {minKey maxKey : Key}

/-- The range of a file that comes later in key order starts later, or at the same key and does
    not end earlier. -/
theorem le_of_targetOrder {f g : FileMeta} (hfg : targetOrder f ≤ targetOrder g) {i j : Key × Key}
    (hi : f.HasRange i) (hj : g.HasRange j) : i.1 < j.1 ∨ i.1 = j.1 ∧ i.2 ≤ j.2 := by
  rw [targetOrder, targetOrder, hi.1, hi.2.1, hj.1, hj.2.1, Prod.Lex.toLex_le_toLex] at hfg
  refine hfg.imp WithBot.coe_lt_coe.1 fun ⟨heq, hle⟩ => ⟨WithBot.coe_injective heq, ?_⟩
  rcases Prod.Lex.toLex_le_toLex.1 hle with hlt | ⟨heq, -⟩
  exacts [(WithBot.coe_lt_coe.1 hlt).le, (WithBot.coe_injective heq).le]

/-- In key order, the files of a level end before the later ones start. -/
theorem pairwise_targetOrder (hlevel : ApartLevel targetFiles) :
    (targetFiles.insertionSort fun left right => targetOrder left ≤ targetOrder right).Pairwise
      fun f g => ∀ i j, f.HasRange i → g.HasRange j → i.2 ≤ j.1 := by
  have : Std.Total fun l r : FileMeta => targetOrder l ≤ targetOrder r := ⟨fun a b => le_total _ _⟩
  have : IsTrans FileMeta fun l r => targetOrder l ≤ targetOrder r := ⟨fun _ _ _ h h' => h.trans h'⟩
  have hperm := perm_insertionSort (fun l r : FileMeta => targetOrder l ≤ targetOrder r)
    targetFiles
  have hapart := (hperm.pairwise_iff (R := fun f g : FileMeta => ∀ i j, f.HasRange i →
    g.HasRange j → Apart i j) fun {f g} h i j hi hj => (h j i hj hi).symm).2 hlevel.apart
  refine (pairwise_insertionSort _ _).imp₂ (fun f g hfg hapart i j hi hj => ?_) hapart
  -- The other way round both would be the same key.
  rcases hapart i j hi hj with hle | hle
  · exact hle
  · have hj' := hj.2.2
    rcases le_of_targetOrder hfg hi hj with hlt | ⟨heq, hle'⟩
    · exact absurd (hj'.trans hle) (not_le.2 hlt)
    · exact hle'.trans (hle.trans heq.le)

/-- The target files of a merge are all those that touch their common hull with
    its sources. -/
theorem exists_hull_overlapSpan (hlevel : ApartLevel targetFiles) :
    ∃ lower upper, lower ≤ minKey ∧ maxKey ≤ upper ∧
      (∀ f ∈ overlapSpan targetFiles minKey maxKey, (∀ a ∈ f.smallestKey, lower ≤ a) ∧
        ∀ b ∈ f.largestKey, b ≤ upper) ∧
      ∀ f ∈ targetFiles, f ∉ overlapSpan targetFiles minKey maxKey →
        ∀ i, f.HasRange i → i.2 < lower ∨ upper < i.1 := by
  have hmeets : ∀ f ∈ targetFiles, f ∉ overlapSpan targetFiles minKey maxKey →
      ∀ i, f.HasRange i → i.2 < minKey ∨ maxKey < i.1 := by
    intro f hf hno i hi
    obtain ⟨hs, hl, -⟩ := hi
    by_contra hmeet
    rw [not_or, not_lt, not_lt] at hmeet
    exact hno (mem_overlapSpan hf (by simpa [meetsSpan, hs, hl] using hmeet.symm))
  have hpairwise := pairwise_iff_getElem.1 (pairwise_targetOrder hlevel)
  rw [overlapSpan] at hmeets ⊢
  set ordered := targetFiles.insertionSort fun left right => targetOrder left ≤ targetOrder right
    with hordered
  -- The intervals of the files between two others.
  have hinterval : ∀ n (hn : n < ordered.length), ∃ j, ordered[n].HasRange j := fun n hn =>
    hlevel.range _ ((mem_insertionSort _).1 (getElem_mem hn))
  split
  next first last hfirst hlast =>
    have hhull := spanHull_of_findIdx? hfirst hlast rfl
    obtain ⟨hmin, hmax, -⟩ := foldl_include_hull
      (files ordered ⟨first, last, minKey, maxKey⟩) ⟨first, last, minKey, maxKey⟩
    obtain ⟨⟨hull, hbefore, hafter⟩, hlower, hupper⟩ :=
      extendSpan_closed hhull (Nat.le_add_right ordered.length _)
    set result := extendSpan ordered ordered.length _
    refine ⟨result.closureMin, result.closureMax, hlower.trans hmin, hmax.trans hupper,
      fun f hf => ?_, fun f hf hno i hi => ?_⟩
    · obtain ⟨n, hn, hfirst, hlast⟩ := exists_of_mem_files hf
      exact hull.within n f hn hfirst hlast
    · obtain ⟨n, hn, rfl⟩ := mem_iff_getElem.1 ((mem_insertionSort _).2 hf : f ∈ ordered)
      replace hn : n < ordered.length := hn
      have hout : n < result.first ∨ result.last < n := by
        by_contra hin
        rw [not_or, not_lt, not_lt] at hin
        exact hno (mem_files_of_between (getElem?_eq_getElem hn) hin.1 hin.2)
      have hrange := hull.le
      have hlen := hull.lt
      rcases hout with hlt | hlt
      · -- The file before the span ends before the hull, and the others before it.
        have hprev : result.first - 1 < ordered.length := by omega
        obtain ⟨j, hj⟩ := hinterval (result.first - 1) hprev
        have hlargest := hj.2.1
        have hle := hj.2.2
        have hend := hbefore _ (by omega) (getElem?_eq_getElem hprev) j.2 hlargest
        rcases (show n ≤ result.first - 1 by omega).eq_or_lt with rfl | hlt'
        · rw [hi.2.1, Option.some.injEq] at hlargest
          exact .inl (hlargest ▸ hend)
        · exact .inl ((hpairwise n _ hn hprev hlt' i j hi hj).trans_lt (hle.trans_lt hend))
      · have hnext : result.last + 1 < ordered.length := by omega
        obtain ⟨j, hj⟩ := hinterval (result.last + 1) hnext
        have hsmallest := hj.1
        have hle := hj.2.2
        have hstart := hafter _ (getElem?_eq_getElem hnext) j.1 hsmallest
        rcases (show result.last + 1 ≤ n by omega).eq_or_lt with rfl | hlt'
        · rw [hi.1, Option.some.injEq] at hsmallest
          exact .inr (hsmallest ▸ hstart)
        · exact .inr (hstart.trans_le (hle.trans (hpairwise _ n hnext hn hlt' j i hj hi)))
  next hnone =>
    refine ⟨minKey, maxKey, le_rfl, le_rfl, by simp, fun f hf _ i hi => hmeets f hf ?_ i hi⟩
    split
    next first last hfirst hlast => exact absurd hlast (hnone first last hfirst)
    next => simp

end Level

end Midge
