import Midge.Compaction.PartitionInvariant

/-!
# The outputs of a fragmentation

Fragmentation rewrites a file at its own level, cut at a key inside its bounds,
without dropping anything: the fragments hold exactly the versions of the
file, and cover every key at the same sequences (`fragments_of_returns`).

The cut is made before the first group at or past the split key. It may fall
in a gap between two groups, where no event happens: the open ranges are then
carried over the cut as they are.
-/

namespace Midge

open CompactionEvent Exec

variable {E P Q Q' G : List CompactionEvent} {W : List CompactionVersion} {key splitKey : Key}
  {w w' : PartitionWork} {s s' : FragmentState}

namespace PartitionInv

/-- Only which ranges have ended matters. -/
theorem congr_ends {gc : TombstoneGcPolicy} (h : PartitionInv gc E P Q W w)
    (hQ : ∀ e, e ∈ Q ↔ e ∈ Q') : PartitionInv gc E P Q' W w :=
  { h with
    live := fun t => by rw [h.live, hQ]
    obsolete := fun t => by rw [h.obsolete, hQ] }

theorem wrote_all {r r' : PartitionRoller} {events : List CompactionEvent}
    (h : Returns (writeAllVersions r events) r') :
    Wrote (events.filterMap version?) r r' := by
  rw [writeAllVersions] at h
  generalize events.filterMap version? = vs at h ⊢
  induction vs generalizing r with
  | nil =>
    obtain rfl := returns_pure.1 h
    exact ⟨rfl, by simp, by simp, rfl⟩
  | cons v vs ih =>
    rw [List.foldlM_cons] at h
    obtain ⟨r₁, hv, h⟩ := returns_bind h
    obtain ⟨h₁, h₂, h₃, h₄⟩ := of_returns_writeSelected hv
    have ih := ih h
    exact ⟨ih.lowerBound.trans h₁, fun h₀ => absurd (ih.count h₀).1 h₂,
      by rw [ih.versions, h₃, List.append_assoc]; rfl, ih.tombstones.trans h₄⟩

/-- Writing a group to the fragments completes its events. Its ending ranges
    may have been retired before. -/
theorem writeFragmentKeyEvents (h : PartitionInv retainAll E P Q W w)
    (hQ : ∀ e, e ∈ Q ++ G ↔ e ∈ P ++ G) (hG : GroupAt E P G key) {forced final : Bool}
    (hr : Returns (Midge.writeFragmentKeyEvents w key G forced final) w') :
    PartitionInv retainAll E (P ++ G) (P ++ G) (W ++ G.filterMap version?) w' ∧
      ∀ b ∈ w'.roller.lowerBound, b ∈ w.roller.lowerBound ∨ b = key := by
  obtain ⟨newest, hn, hr⟩ := returns_bind hr
  obtain ⟨roll, -, hr⟩ := returns_bind hr
  obtain ⟨w₁, hroll, hr⟩ := returns_bind hr
  obtain ⟨tombstones, hobserve, hr⟩ := returns_bind hr
  obtain ⟨roller, hwrite, hr⟩ := returns_bind hr
  obtain ⟨_, -, hr⟩ := returns_bind hr
  cases returns_pure.1 hr
  rw [returns_ofExcept] at hn
  have hadv : PartitionInv retainAll E P (P ++ G) W _ := (h.advanceToKey (G := G)).congr_ends hQ
  have h₁ : PartitionInv retainAll E P (P ++ G) W w₁ ∧
      ∀ b ∈ w₁.roller.lowerBound, b ∈ w.roller.lowerBound ∨ b = key := by
    rw [returns_ite] at hroll
    rcases hroll with ⟨-, hroll⟩ | ⟨-, hroll⟩
    · obtain ⟨h₁, hb⟩ := hadv.rollPartition_group hG hroll
      refine ⟨h₁, fun b hb' => .inr ?_⟩
      rw [hb] at hb'
      exact (Option.some.inj hb').symm
    · rw [returns_pure.1 hroll]
      exact ⟨hadv, fun b hb => .inl hb⟩
  have hwrote := wrote_all hwrite
  refine ⟨h₁.1.observe_write hG hobserve (fun v hv => ?_) (fun u v => ?_) hwrote, ?_⟩
  · simpa using hv
  · exact unique_of_selectNewestVersion hn fun e he => (hG.mem e he).2
  · simpa only [hwrote.lowerBound] using h₁.2

end PartitionInv

/-- The invariant of the fragmentation loop, after the events `P`: all their
    versions are written, and while the cut is pending everything is before
    it. -/
structure FragmentInv (splitKey : Key) (E P : List CompactionEvent) (s : FragmentState) : Prop where
  work : ∃ W, PartitionInv retainAll E P P W s.work ∧ W = P.filterMap version?
  before : s.cutPending → ∀ e ∈ P, e.key < splitKey
  lower : s.cutPending → ∀ b ∈ s.work.roller.lowerBound, b < splitKey

/-- The cut before a key group, if it is due. -/
abbrev FragmentState.cut (s : FragmentState) (splitKey key : Key) (G : List CompactionEvent)
    (forced : Bool) : MidgeExec PartitionWork :=
  let w := if forced && decide (key = splitKey) then
    { s.work with tombstones := s.work.tombstones.advanceToKey G } else s.work
  if forced then rollPartition w splitKey else pure w

/-- The cut is between the keys before and those to come. -/
theorem FragmentInv.cut (h : FragmentInv splitKey E P s) (hG : GroupAt E P G key) {forced : Bool}
    (hforced : forced = (s.cutPending && decide (splitKey ≤ key)))
    (hr : Returns (s.cut splitKey key G forced) w) :
    ∃ Q, (∀ e, e ∈ Q ++ G ↔ e ∈ P ++ G) ∧
      PartitionInv retainAll E P Q (P.filterMap version?) w ∧
      (forced = false → w = s.work) := by
  obtain ⟨_, hw, rfl⟩ := h.work
  cases forced with
  | false =>
    obtain rfl := returns_pure.1 hr
    exact ⟨P, fun e => .rfl, hw, fun _ => rfl⟩
  | true =>
    obtain ⟨hpending, hle⟩ : s.cutPending = true ∧ splitKey ≤ key := by simpa using hforced.symm
    have hafter : ∀ e ∈ E, e ∉ P → splitKey ≤ e.key := fun e he hP =>
      hle.trans (hG.key_le_of_not_mem he hP)
    have hlower := fun b hb => (h.lower hpending b hb).le
    by_cases heq : key = splitKey
    · -- The ranges ending at the cut are retired first.
      subst heq
      simp only [FragmentState.cut, decide_true, Bool.and_true, if_true] at hr
      refine ⟨P ++ G, fun e => by simp, (hw.advanceToKey.rollPartition_group hG hr).1, by simp⟩
    · simp only [FragmentState.cut, heq, decide_false, Bool.and_false, Bool.false_eq_true,
        if_false, if_true] at hr
      exact ⟨P, fun e => .rfl, (hw.rollPartition (h.before hpending) hafter
        (fun e he => (h.before hpending e he).le) hlower hr).1, by simp⟩

/-- Processing a key group completes its events. -/
theorem FragmentInv.processFragmentKeyGroup (h : FragmentInv splitKey E P s)
    (hG : GroupAt E P G key) {final : Bool}
    (hr : Returns (Midge.processFragmentKeyGroup splitKey s key G final) s') :
    FragmentInv splitKey E (P ++ G) s' := by
  obtain ⟨w₁, hcut, hr⟩ := returns_bind hr
  obtain ⟨w₂, hwrite, hr⟩ := returns_bind hr
  cases returns_pure.1 hr
  obtain ⟨Q, hQ, hw₁, hsame⟩ := h.cut hG rfl hcut
  obtain ⟨hw₂, hlower⟩ := hw₁.writeFragmentKeyEvents hQ hG hwrite
  -- While the cut is pending, the group lies before it.
  have hpending : (s.cutPending && !(s.cutPending && decide (splitKey ≤ key))) = true →
      s.cutPending = true ∧ key < splitKey := by
    simp +contextual
  refine ⟨⟨_, hw₂, by rw [List.filterMap_append]⟩, fun hp e he => ?_, fun hp b hb => ?_⟩
  · obtain ⟨hp, hlt⟩ := hpending hp
    rcases List.mem_append.1 he with he | he
    · exact h.before hp e he
    · rwa [(hG.mem e he).2]
  · obtain ⟨hp, hlt⟩ := hpending hp
    rcases hlower b hb with hb | rfl
    · rw [hsame (by simp [hlt])] at hb
      exact h.lower hp b hb
    · exact hlt

section Run

variable {factory : SstFactory} {inputs : List CompactionEventCursor}
  {identity : PartitionIdentity} {targetSstSize : ℕ} {limit : Option ℕ}
  {outputs : List FinishedPartition}

/-- The merge that a fragmentation runs over, and its outputs once it has. -/
theorem of_returns_writeFragmentedCompactionOutputs (hE : E = inputs.flatMap KWayMerge.oks)
    (hsorted : ∀ c ∈ inputs, EventsSorted (KWayMerge.oks c))
    (h : Returns (writeFragmentedCompactionOutputs factory inputs identity splitKey
      targetSstSize limit) outputs)
    {I : List CompactionEvent → FragmentState → Prop}
    (hinit : ∀ roller : PartitionRoller, roller.lowerBound = none → roller.writer = .empty →
      roller.outputSizeLimit = limit → I [] { work := ⟨roller, {}, []⟩ })
    (hstep : ∀ P G key s last s', GroupAt E P G key → (last = true ↔ ∀ e ∈ E, e ∈ P ++ G) →
      I P s → Returns (processFragmentKeyGroup splitKey s key G last) s' → I (P ++ G) s') :
    (∀ c ∈ inputs, KWayMerge.Clean c) ∧ ∃ P s, P.Perm E ∧ I P s ∧ s.hasKeyAfterCut = true ∧
      Returns (finishPartitionedOutputs s.work) outputs := by
  obtain ⟨merged, hmerged, h⟩ := returns_bind (returns_seq h)
  obtain ⟨-, h⟩ := returns_ite_fail.1 h
  obtain ⟨roller, hroller, h⟩ := returns_bind h
  cases returns_pure.1 (returns_seq hroller :)
  obtain ⟨s, hloop, h⟩ := returns_bind h
  rw [returns_ite] at h
  rcases h with ⟨hcut, h⟩ | ⟨-, h⟩
  swap
  · exact absurd h not_returns_fail
  obtain ⟨hevents, hs, hinputs⟩ := EventMergeIterator.of_returns_new hmerged hsorted
  obtain ⟨⟨P, hP, hI⟩, hclean⟩ := of_returns_forKeyGroups (E := E) (P := []) (I := I) hstep
    (hinit _ rfl rfl rfl) hs le_rfl (by rw [List.nil_append, hevents, hE]) (by simp) hloop
  exact ⟨hinputs hclean, P, s, hP, hI, hcut, h⟩

/-- What fragments hold: exactly the versions of the inputs, and for every key
    the sequences of the ranges that cover it. The inputs were read without a
    failure. -/
theorem fragments_of_returns (hE : E = inputs.flatMap KWayMerge.oks)
    (hsorted : ∀ c ∈ inputs, EventsSorted (KWayMerge.oks c))
    (h : Returns (writeFragmentedCompactionOutputs factory inputs identity splitKey
      targetSstSize limit) outputs) :
    (∃ W, PartitionOutputs retainAll E W outputs ∧ W.Perm (E.filterMap version?)) ∧
      ∀ c ∈ inputs, KWayMerge.Clean c := by
  obtain ⟨hclean, P, s, hP, hinv, -, h⟩ := of_returns_writeFragmentedCompactionOutputs hE hsorted h
    (I := FragmentInv splitKey E)
    (fun roller hl hw _ => ⟨⟨[], .init hl hw, rfl⟩, by simp, by simp [hl]⟩)
    (fun P G key s _ s' hG _ hI => hI.processFragmentKeyGroup hG)
  obtain ⟨W, hwork, hW⟩ := hinv.work
  exact ⟨⟨W, hwork.of_returns_finishPartitionedOutputs hP h, hW ▸ hP.filterMap _⟩, hclean⟩

end Run

end Midge
