import Midge.Compaction.LayoutSpec
import Midge.Lib.Intervals

/-!
# A level without repair components is a tiling

The sweep keeps count of the files that reach the current start. So it finds a
defect exactly at a file that crosses earlier ones, and a level has no repair
components if and only if its files, as closed key intervals, are a tiling
(`repairComponents_eq_nil_iff_tiling`).
-/

namespace Midge

open Intervals List SortedMap RepairInterval

/-- The file as an interval. -/
def RepairInterval.bounds (i : RepairInterval) : Key × Key := (i.start, i.stop)

/-- The intervals of the files with complete, ordered bounds. -/
def keyIntervals (files : List FileMeta) : List (Key × Key) :=
  files.filterMap GrandparentOverlap.completeBounds

/-! ## Counting the active files -/

/-- How many of the active files reach the key. -/
def reachCount (active : ActiveEndpoints) (y : Key) : ℕ :=
  ((active.filter fun e => decide (y ≤ e.1)).map fun e => e.2.count).sum

theorem reachCount_cons (e : Key × EndpointGroup) (active : ActiveEndpoints) (y : Key) :
    reachCount (e :: active) y = (if y ≤ e.1 then e.2.count else 0) + reachCount active y := by
  rw [reachCount, filter_cons]
  by_cases h : y ≤ e.1 <;> simp [h, reachCount]

theorem reachCount_eq (active : ActiveEndpoints) (y : Key) :
    reachCount active y = (active.map fun e => if y ≤ e.1 then e.2.count else 0).sum := by
  induction active with
  | nil => rfl
  | cons e active ih => rw [reachCount_cons, ih, map_cons, sum_cons]

theorem reachCount_pos {active : ActiveEndpoints} {y : Key} :
    0 < reachCount active y ↔ ∃ e ∈ active, y ≤ e.1 ∧ 0 < e.2.count := by
  simp only [reachCount, Nat.pos_iff_ne_zero, ne_eq, sum_eq_zero_iff, mem_map,
    mem_filter, decide_eq_true_eq]
  push Not
  constructor
  · rintro ⟨_, ⟨e, ⟨he, hy⟩, rfl⟩, hne⟩
    exact ⟨e, he, hy, hne⟩
  · rintro ⟨e, he, hy, hne⟩
    exact ⟨_, ⟨e, ⟨he, hy⟩, rfl⟩, hne⟩

/-- Dropping the files that end before a key drops none that reach it. -/
theorem reachCount_dropWhile (active : ActiveEndpoints) {start y : Key} (hy : start ≤ y) :
    reachCount (active.dropWhile fun (bound, _) => decide (bound < start)) y =
      reachCount active y := by
  induction active with
  | nil => rfl
  | cons e active ih =>
    rw [dropWhile_cons]
    split_ifs with he
    · have hlt : ¬ y ≤ e.1 := not_le.2 ((of_decide_eq_true he).trans_le hy)
      rw [ih, reachCount_cons, if_neg hlt, zero_add]
    · rfl

/-- The files that are left are all counted at the key. -/
theorem sum_count_eq_reachCount {active : ActiveEndpoints} {y : Key} (h : ∀ e ∈ active, y ≤ e.1) :
    (active.map fun e => e.2.count).sum = reachCount active y := by
  rw [reachCount, filter_eq_self.2 fun e he => decide_eq_true (h e he)]

/-! ## What the sweep finds -/

/-- The sweep has counted the files `P`, and found those that cross. -/
structure SweepExact (P : List RepairInterval) (s : RepairSweep) : Prop where
  reach : ∀ y, (∀ i ∈ P, i.start ≤ y) →
    reachCount s.active y = P.countP fun i => decide (y ≤ i.stop)
  found : s.found = true ↔ ∃ before i after, P = before ++ i :: after ∧
    Crosses (before.map bounds) i.bounds

section Step

variable {n : ℕ} {P : List RepairInterval} {i : RepairInterval} {s : RepairSweep}

theorem crosses_map_bounds :
    Crosses (P.map bounds) i.bounds ↔
      (∃ j ∈ P, i.start < j.stop) ∨ 2 ≤ P.countP fun j => decide (i.start ≤ j.stop) := by
  rw [Crosses, countP_map]
  refine or_congr_left ⟨?_, ?_⟩
  · rintro ⟨_, hb, hlt⟩
    obtain ⟨j, hj, rfl⟩ := mem_map.1 hb
    exact ⟨j, hj, hlt⟩
  · rintro ⟨j, hj, hlt⟩
    exact ⟨_, mem_map_of_mem hj, hlt⟩

/-- The files that reach the start of the next one are counted. -/
theorem SweepExact.countAt (h : SweepExact P s) (hs : SweepInv n P s) (hnext : NextFile n P i) :
    s.countAt i = P.countP fun j => decide (i.start ≤ j.stop) := by
  rw [hs.countAt, ← h.reach _ hnext.after, ← reachCount_dropWhile s.active le_rfl]
  exact sum_count_eq_reachCount fun e he => hs.start_le he

/-- A file is found if it crosses those before. -/
theorem found_sweepFile (hs : SweepInv n P s) (h : SweepExact P s) (hnext : NextFile n P i) :
    (sweepFile s i).found = true ↔
      s.found = true ∨ Crosses (P.map bounds) i.bounds := by
  have hpast : (∃ e ∈ s.activeAt i, i.start < e.1) ↔ ∃ j ∈ P, i.start < j.stop := by
    constructor
    · rintro ⟨e, he, hlt⟩
      have hpos : 0 < reachCount s.active e.1 := reachCount_pos.2
        ⟨e, (dropWhile_sublist _).mem he, le_rfl, (hs.activeAt i).counted e he⟩
      rw [h.reach _ fun j hj => (hnext.after j hj).trans hlt.le, countP_pos_iff] at hpos
      obtain ⟨j, hj, hle⟩ := hpos
      exact ⟨j, hj, hlt.trans_le (of_decide_eq_true hle)⟩
    · rintro ⟨j, hj, hlt⟩
      obtain ⟨e, he, heq⟩ := mem_map.1 (hs.mem_activeAt hnext hj hlt.le)
      exact ⟨e, he, heq ▸ hlt⟩
  rw [sweepFile_found (hs.activeAt i).sorted, h.countAt hs hnext, hpast, crosses_map_bounds, or_assoc]

theorem SweepExact.sweepFile (hs : SweepInv n P s) (h : SweepExact P s) (hnext : NextFile n P i) :
    SweepExact (P ++ [i]) (sweepFile s i) where
  reach y hy := by
    have hP : ∀ j ∈ P, j.start ≤ y := fun j hj => hy j (mem_append_left _ hj)
    -- Adding the file counts it up to its end.
    have hcount : reachCount (Midge.sweepFile s i).active y =
        reachCount (s.activeAt i) y + if y ≤ i.stop then 1 else 0 := by
      rw [sweepFile_active (hs.activeAt i).sorted, reachCount_eq, reachCount_eq]
      refine sum_alter (fun group => ?_) _
      rw [count_joinGroup]
      cases group <;> by_cases hy : y ≤ i.stop <;> simp [hy]
    rw [hcount, RepairSweep.activeAt, reachCount_dropWhile _ (hy i (by simp)), h.reach y hP]
    simp [countP_append, countP_cons]
  found := by
    rw [found_sweepFile hs h hnext, h.found]
    constructor
    · rintro (⟨before, j, after, rfl, hc⟩ | hc)
      · exact ⟨before, j, after ++ [i], by simp, hc⟩
      · exact ⟨P, i, [], rfl, hc⟩
    · rintro ⟨before, j, after, heq, hc⟩
      rcases eq_nil_or_concat after with rfl | ⟨after, last, rfl⟩
      · obtain ⟨rfl, hj⟩ := append_inj' heq rfl
        rw [(cons.inj hj).1]
        exact .inr hc
      · rw [concat_eq_append, ← cons_append, ← append_assoc] at heq
        exact .inl ⟨before, j, after, (append_inj' heq rfl).1, hc⟩

end Step

/-! ## Levels -/

theorem map_bounds_repairOrder_perm (files : List FileMeta) :
    ((repairOrder files).map bounds).Perm (keyIntervals files) := by
  refine ((perm_insertionSort _ _).map _).trans (.of_eq ?_)
  rw [map_filterMap, keyIntervals]
  have hfst : files = files.zipIdx.map Prod.fst := by simp
  conv_rhs => rw [hfst]
  rw [filterMap_map]
  refine filterMap_congr fun e _ => ?_
  cases h : GrandparentOverlap.completeBounds e.1 <;> simp [h, bounds]

/-- A level has no repair components if and only if its files are a tiling. -/
theorem repairComponents_eq_nil_iff_tiling {files : List FileMeta} :
    repairComponents files = [] ↔ Tiling (keyIntervals files) := by
  obtain ⟨-, hexact⟩ := sweep_invariant files (I := SweepExact)
    ⟨fun y _ => rfl, by simp⟩ fun P i s hnext hs h => h.sweepFile hs hnext
  have hordered : Ordered ((repairOrder files).map bounds) :=
    pairwise_map.2 (pairwise_order_repairOrder files)
  have hbounds : ∀ b ∈ (repairOrder files).map bounds, b.1 ≤ b.2 := by
    intro b hb
    obtain ⟨i, hi, rfl⟩ := mem_map.1 hb
    obtain ⟨file, -, -, hfile⟩ := mem_repairOrder.1 hi
    exact (le_of_completeBounds hfile).2.2.2
  rw [repairComponents_eq_nil_iff, ← tiling_congr (map_bounds_repairOrder_perm files),
    tiling_iff_sweep hordered hbounds, ← Bool.not_eq_true, hexact.found]
  constructor
  · intro h before b after heq hc
    obtain ⟨before, rest, hsplit, rfl, hrest⟩ := map_eq_append_iff.1 heq
    obtain ⟨i, after, rfl, rfl, rfl⟩ := map_eq_cons_iff.1 hrest
    exact h ⟨before, i, after, hsplit, hc⟩
  · rintro h ⟨before, i, after, heq, hc⟩
    exact h _ i.bounds (after.map bounds) (by rw [heq]; simp) hc

end Midge
