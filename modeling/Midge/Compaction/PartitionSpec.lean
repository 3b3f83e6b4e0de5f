import Midge.Compaction.Partition

/-!
# What each step of the partitioned compaction does

One lemma per function of the partition writer, for its successful runs: what
it leaves in the tracker, in the writer and in the outputs. The sizes and the
rolling decisions do not matter here: the lemmas hold whatever the writer
reports.
-/

namespace Midge

open CompactionEvent Exec

/-! ## Clipping -/

variable {t : RangeTombstone} {lower upper : Option Key}

/-- The clipped tombstone covers the keys of the original between the bounds. -/
theorem RangeTombstone.covers_clip {k : Key} {c : ℕ} :
    (∃ t' ∈ t.clip lower upper, t'.Covers k ∧ t'.seq = c) ↔
      t.Covers k ∧ t.seq = c ∧ (∀ b ∈ lower, b ≤ k) ∧ ∀ b ∈ upper, k < b := by
  have hlower : lower.elim t.start (max t.start) ≤ k ↔ t.start ≤ k ∧ ∀ b ∈ lower, b ≤ k := by
    cases lower <;> simp
  have hupper : k < upper.elim t.stop (min t.stop) ↔ k < t.stop ∧ ∀ b ∈ upper, k < b := by
    cases upper <;> simp
  simp only [RangeTombstone.clip, Option.mem_def]
  split_ifs with h
  · simp only [false_and, exists_false, false_iff]
    rintro ⟨⟨h₁, h₂⟩, -, h₃, h₄⟩
    exact absurd ((hlower.2 ⟨h₁, h₃⟩).trans_lt (hupper.2 ⟨h₂, h₄⟩)) (not_lt.2 h)
  · simp only [Option.some.injEq, exists_eq_left', RangeTombstone.Covers, hlower, hupper]
    tauto

/-- Writing the tombstones of a partition appends the clipped ones. -/
theorem of_returns_addPartitionRangeTombstones {tombstones : List RangeTombstone}
    {writer writer' : SstContents} {index added added' : ℕ}
    (h : Returns (addPartitionRangeTombstones lower upper writer index added tombstones)
      (writer', added')) :
    writer'.versions = writer.versions ∧
      writer'.tombstones = writer.tombstones ++ tombstones.filterMap (·.clip lower upper) ∧
      (added' = 0 → added = 0 ∧ tombstones.filterMap (·.clip lower upper) = []) := by
  induction tombstones generalizing writer index added with
  | nil =>
    rw [addPartitionRangeTombstones, returns_pure] at h
    cases h
    simp
  | cons t tombstones ih =>
    rw [addPartitionRangeTombstones] at h
    replace h := returns_seq h
    split at h
    next hc => simpa [hc] using ih h
    next c hc =>
      obtain ⟨w, hw, h⟩ := returns_bind h
      cases returns_pure.1 (returns_seq hw :)
      obtain ⟨h₁, h₂, h₃⟩ := ih h
      refine ⟨h₁, by simp [h₂, hc], fun h₀ => ?_⟩
      have := (h₃ h₀).1
      simp [satAdd, usizeMax] at this

/-- A finished partition holds the versions of its writer and the clipped
    tombstones; none is written only if there is nothing to hold. -/
theorem of_returns_finishPartition {factory : SstFactory} {writer : SstContents} {pointCount : ℕ}
    {retained : List RangeTombstone} {identity : PartitionIdentity} {limit : Option ℕ}
    {finished : Option FinishedPartition} (hw : writer.tombstones = [])
    (hcount : pointCount = 0 → writer.versions = [])
    (h : Returns
      (finishPartition factory writer pointCount retained lower upper identity limit) finished) :
    (finished.toList.flatMap fun f => f.contents.versions) = writer.versions ∧
      (finished.toList.flatMap fun f => f.contents.tombstones) =
        retained.filterMap (·.clip lower upper) := by
  obtain ⟨⟨writer', n⟩, hadd, h⟩ := returns_bind (returns_seq h)
  obtain ⟨hv, ht, hn⟩ := of_returns_addPartitionRangeTombstones hadd
  rw [returns_ite] at h
  rcases h with ⟨⟨hp, hn₀⟩, h⟩ | ⟨-, h⟩
  · cases returns_pure.1 h
    simp [hcount hp, (hn hn₀).2]
  · obtain ⟨_, -, h⟩ := returns_bind h
    obtain ⟨-, h⟩ := returns_ite_fail.1 (returns_seq h :)
    cases returns_pure.1 h
    simp [hv, ht, hw]

/-! ## The tracker -/

variable {l : List RangeTombstone}

theorem mem_insertByKey {K : Type*} [LinearOrder K] {key : RangeTombstone → K} {u : RangeTombstone} :
    u ∈ insertByKey key t l ↔ u = t ∨ u ∈ l := List.mem_orderedInsert _

theorem pairwise_insertByKey {K : Type*} [LinearOrder K] {key : RangeTombstone → K}
    (h : l.Pairwise fun a b => key a ≤ key b) :
    (insertByKey key t l).Pairwise fun a b => key a ≤ key b :=
  haveI : Std.Total fun a b => key a ≤ key b := ⟨fun _ _ => le_total _ _⟩
  haveI : IsTrans RangeTombstone fun a b => key a ≤ key b := ⟨fun _ _ _ => le_trans⟩
  h.orderedInsert _ _

variable {pending : Option PendingTombstoneBound}

theorem PartitionTombstones.of_returns_insert {p p' : PartitionTombstones}
    (h : Returns (p.insert t pending) p') : ∀ u, u ∈ p'.entries ↔ u = t ∨ u ∈ p.entries := by
  intro u
  rw [PartitionTombstones.insert, returns_ite] at h
  rcases h with ⟨hmem, h⟩ | ⟨-, h⟩
  · cases returns_pure.1 h
    exact ⟨.inr, by rintro (rfl | h) <;> assumption⟩
  · obtain ⟨_, -, h⟩ := returns_bind h
    obtain ⟨_, -, h⟩ := returns_bind h
    cases returns_pure.1 h
    exact mem_insertByKey

/-- Inserting adds the tombstone to the side it belongs to, unless it is
    already there. -/
theorem ActiveTombstones.of_returns_insert {a a' : ActiveTombstones} {obsolete : Bool}
    (h : Returns (a.insert t obsolete) a') (hlive : t ∈ a.live → obsolete = false)
    (hobs : t ∈ a.obsolete → obsolete = true)
    (hsorted : a.obsolete.Pairwise fun x y => activeTombstoneKey x ≤ activeTombstoneKey y) :
    (∀ u, u ∈ a'.live ↔ (u = t ∧ obsolete = false) ∨ u ∈ a.live) ∧
      (∀ u, u ∈ a'.obsolete ↔ (u = t ∧ obsolete = true) ∨ u ∈ a.obsolete) ∧
      a'.obsolete.Pairwise fun x y => activeTombstoneKey x ≤ activeTombstoneKey y := by
  rw [ActiveTombstones.insert, returns_ite] at h
  rcases h with ⟨hmem, h⟩ | ⟨-, h⟩
  · cases returns_pure.1 h
    refine ⟨fun u => ⟨.inr, ?_⟩, fun u => ⟨.inr, ?_⟩, hsorted⟩
    · rintro (⟨rfl, ho⟩ | hu)
      · exact hmem.resolve_right fun h => by simp [hobs h] at ho
      · exact hu
    · rintro (⟨rfl, ho⟩ | hu)
      · exact hmem.resolve_left fun h => by simp [hlive h] at ho
      · exact hu
  · obtain ⟨_, -, h⟩ := returns_bind h
    cases obsolete with
    | true =>
      cases returns_pure.1 h
      exact ⟨fun u => by simp, fun u => by simp [mem_insertByKey], pairwise_insertByKey hsorted⟩
    | false =>
      cases returns_pure.1 h
      exact ⟨fun u => by simp [mem_insertByKey], fun u => by simp, hsorted⟩

/-- Retiring the ranges that end removes exactly these. -/
theorem ActiveTombstones.foldl_remove {ends : List RangeTombstone} {a : ActiveTombstones} :
    (ends.foldl .remove a).live = a.live.filter (· ∉ ends) ∧
      (ends.foldl .remove a).obsolete = a.obsolete.filter (· ∉ ends) := by
  induction ends generalizing a with
  | nil => simp
  | cons t ends ih =>
    rw [List.foldl_cons, ih.1, ih.2]
    simp only [ActiveTombstones.remove, List.filter_filter, List.mem_cons, not_or]
    constructor <;> congr 1 <;> funext u <;> simp [Bool.and_comm]

namespace RangeTombstoneTracker

variable {tracker tracker' : RangeTombstoneTracker}

/-- The observed ranges are active, and those that are not obsolete belong to
    the partition; none of them is empty. -/
theorem of_returns_observeStarts {policy : TombstoneGcPolicy} {starts : List RangeTombstone}
    (h : Returns (observeStarts policy pending tracker starts) tracker')
    (hlive : ∀ t ∈ tracker.active.live, rangeTombstoneIsObsolete t policy = false)
    (hobs : ∀ t ∈ tracker.active.obsolete, rangeTombstoneIsObsolete t policy = true)
    (hsorted : tracker.active.obsolete.Pairwise
      fun x y => activeTombstoneKey x ≤ activeTombstoneKey y) :
    (∀ u, u ∈ tracker'.active.live ↔
        (u ∈ starts ∧ rangeTombstoneIsObsolete u policy = false) ∨ u ∈ tracker.active.live) ∧
      (∀ u, u ∈ tracker'.active.obsolete ↔
        (u ∈ starts ∧ rangeTombstoneIsObsolete u policy = true) ∨ u ∈ tracker.active.obsolete) ∧
      (tracker'.active.obsolete.Pairwise
        fun x y => activeTombstoneKey x ≤ activeTombstoneKey y) ∧
      (∀ u, u ∈ tracker'.partition.entries ↔
        (u ∈ starts ∧ rangeTombstoneIsObsolete u policy = false) ∨
          u ∈ tracker.partition.entries) := by
  induction starts generalizing tracker with
  | nil =>
    rw [observeStarts, returns_pure] at h
    cases h
    simpa using hsorted
  | cons t starts ih =>
    rw [observeStarts] at h
    obtain ⟨-, h⟩ := returns_ite_fail.1 h
    obtain ⟨partition, hp, h⟩ := returns_bind h
    obtain ⟨active, ha, h⟩ := returns_bind h
    obtain ⟨hl, ho, hs⟩ := ActiveTombstones.of_returns_insert ha (hlive t) (hobs t) hsorted
    have hpart : ∀ u, u ∈ partition.entries ↔
        (u = t ∧ rangeTombstoneIsObsolete t policy = false) ∨ u ∈ tracker.partition.entries := by
      intro u
      cases hobsolete : rangeTombstoneIsObsolete t policy with
      | true =>
        rw [hobsolete, if_pos rfl, returns_pure] at hp
        simp [hp]
      | false =>
        rw [hobsolete, if_neg Bool.false_ne_true] at hp
        simp [PartitionTombstones.of_returns_insert hp u]
    obtain ⟨ih₁, ih₂, ih₃, ih₄⟩ := ih h
      (fun u hu => by rcases (hl u).1 hu with ⟨rfl, h⟩ | h; exacts [h, hlive u h])
      (fun u hu => by rcases (ho u).1 hu with ⟨rfl, h⟩ | h; exacts [h, hobs u h]) hs
    refine ⟨fun u => ?_, fun u => ?_, ih₃, fun u => ?_⟩
    · rw [ih₁, hl, List.mem_cons]
      constructor <;> grind
    · rw [ih₂, ho, List.mem_cons]
      constructor <;> grind
    · rw [ih₄, hpart, List.mem_cons]
      constructor <;> grind

/-- The observed ranges are not empty. -/
theorem lt_of_returns_observeStarts {policy : TombstoneGcPolicy} {starts : List RangeTombstone}
    (h : Returns (observeStarts policy pending tracker starts) tracker') :
    ∀ t ∈ starts, t.start < t.stop := by
  induction starts generalizing tracker with
  | nil => simp
  | cons t starts ih =>
    rw [observeStarts] at h
    obtain ⟨hlt, h⟩ := returns_ite_fail.1 h
    obtain ⟨_, -, h⟩ := returns_bind h
    obtain ⟨_, -, h⟩ := returns_bind h
    exact List.forall_mem_cons.2 ⟨not_le.1 hlt, ih h⟩

theorem of_returns_foldlM_insert {p p' : PartitionTombstones}
    (h : Returns (l.foldlM (fun p t => p.insert t pending) p) p') :
    ∀ u, u ∈ p'.entries ↔ u ∈ l ∨ u ∈ p.entries := by
  induction l generalizing p with
  | nil =>
    rw [List.foldlM_nil, returns_pure] at h
    simp [h]
  | cons t l ih =>
    rw [List.foldlM_cons] at h
    obtain ⟨p₁, h₁, h⟩ := returns_bind h
    intro u
    rw [ih h, PartitionTombstones.of_returns_insert h₁, List.mem_cons]
    tauto

/-- The next partition starts with the live ranges. -/
theorem of_returns_carryLiveTombstones
    (h : Returns (tracker.carryLiveTombstones pending) tracker') :
    tracker'.active = tracker.active ∧
      ∀ u, u ∈ tracker'.partition.entries ↔ u ∈ tracker.active.live := by
  obtain ⟨p, hp, h⟩ := returns_bind h
  cases returns_pure.1 h
  exact ⟨rfl, fun u => by simpa using of_returns_foldlM_insert hp u⟩

end RangeTombstoneTracker

end Midge
