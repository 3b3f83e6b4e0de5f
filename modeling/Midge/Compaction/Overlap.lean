import Midge.Types
import Midge.Compaction.Merge

/-!
# Grandparent overlap

A soft budget for the bytes of the next level that one compaction output may
intersect. The boundaries of the next level's files enter the merge as events
of their own, so that an output can be closed there, and a tracker follows the
overlap of the output being written (`OverlapTracker`).
-/

namespace Midge

/-- The soft overlap budget of one output: the start and end keys of the next
    level's files, each with the bytes of all the files up to it. -/
structure GrandparentOverlap where
  maxBytes : ℕ := 0
  starts : List (Key × ℕ) := []
  ends : List (Key × ℕ) := []
  unknownBytes : ℕ := 0
  deriving DecidableEq, Repr

namespace GrandparentOverlap

/-- The running totals of the bytes, from `total` on. -/
def runningTotals : ℕ → List (Key × ℕ) → List (Key × ℕ)
  | _, [] => []
  | total, (key, bytes) :: l => (key, total + bytes) :: runningTotals (total + bytes) l

/-- Sort the endpoints by key, and sum their bytes up. -/
def prefixSums (endpoints : List (Key × ℕ)) : List (Key × ℕ) :=
  runningTotals 0 (endpoints.insertionSort fun left right => left.1 ≤ right.1)

/-- The bounds of a file, when they are complete and in order. -/
def completeBounds (file : FileMeta) : Option (Key × Key) :=
  match file.smallestKey, file.largestKey with
  | some lower, some upper =>
    if file.keyBoundsComplete ∧ lower ≤ upper then some (lower, upper) else none
  | _, _ => none

/-- The budget of the files of the next level. -/
def fromFiles (files : List FileMeta) (maxBytes : ℕ) : GrandparentOverlap where
  maxBytes := maxBytes
  starts := prefixSums (files.filterMap fun f => (completeBounds f).map (·.1, f.sizeBytes))
  ends := prefixSums (files.filterMap fun f => (completeBounds f).map (·.2, f.sizeBytes))
  unknownBytes := ((files.filter fun f => (completeBounds f).isNone).map FileMeta.sizeBytes).sum

/-- The bytes of the files intersecting `[lower, upper]`. -/
def bytesBetween (policy : GrandparentOverlap) (lower upper : Key) : ℕ :=
  let starts := partitionPoint (fun e => e.1 ≤ upper) policy.starts
  let ends := partitionPoint (fun e => e.1 < lower) policy.ends
  let started := if starts = 0 then 0 else (policy.starts[starts - 1]?.map (·.2)).getD 0
  let ended := if ends = 0 then 0 else (policy.ends[ends - 1]?.map (·.2)).getD 0
  min (started - ended + policy.unknownBytes) usizeMax

/-- The boundaries of the next level's files, as an input of the merge. -/
def boundaryCursor (policy : GrandparentOverlap) : Option CompactionEventCursor :=
  if policy.maxBytes = 0 ∨ policy.starts = [] then none
  else
    some ((((policy.starts.map (·.1)).insertionSort (· ≤ ·)).dedup).map (.ok ∘ .boundary))

end GrandparentOverlap

/-- The overlap of the output being written. -/
structure OverlapTracker where
  policy : GrandparentOverlap
  lower : Option Key := none
  previousBytes : ℕ := 0

namespace OverlapTracker

/-- Whether an output reaching `key` would exceed the budget. -/
def shouldRoll (t : OverlapTracker) (key : Key) : Bool :=
  match t.lower with
  | none => false
  | some lower =>
    let prospective := t.policy.bytesBetween lower key
    decide (t.policy.maxBytes ≠ 0 ∧ t.policy.maxBytes < prospective ∧
      t.previousBytes < prospective)

/-- Start over, for a new output. -/
def reset (t : OverlapTracker) : OverlapTracker := { t with lower := none, previousBytes := 0 }

/-- Record that the output reaches `key`. -/
def observe (t : OverlapTracker) (key : Key) : MidgeExec OverlapTracker := do
  Exec.askWhen t.lower.isNone
  let lower := t.lower.getD key
  return { t with lower := some lower, previousBytes := t.policy.bytesBetween lower key }

end OverlapTracker

/-- Boundaries are in key order and carry no mutation. -/
theorem GrandparentOverlap.of_boundaryCursor {policy : GrandparentOverlap}
    {cursor : CompactionEventCursor} (h : policy.boundaryCursor = some cursor) :
    EventsSorted (KWayMerge.oks cursor) ∧
      ∀ e ∈ KWayMerge.oks cursor, ∃ key, e = .boundary key := by
  rw [boundaryCursor] at h
  split_ifs at h
  cases h
  set keys := ((policy.starts.map (·.1)).insertionSort (· ≤ ·)).dedup with hkeys
  have hoks : KWayMerge.oks (keys.map ((.ok : _ → MidgeResult CompactionEvent) ∘ .boundary)) =
      keys.map .boundary := by
    rw [← List.map_map, KWayMerge.oks_map_ok]
  rw [hoks]
  constructor
  · have hsorted : keys.Pairwise (· ≤ ·) :=
      ((policy.starts.map (·.1)).pairwise_insertionSort (· ≤ ·)).sublist (List.dedup_sublist _)
    simpa [EventsSorted, List.map_map, Function.comp_def, CompactionEvent.key] using hsorted
  · intro e he
    obtain ⟨key, -, rfl⟩ := List.mem_map.1 he
    exact ⟨key, rfl⟩

namespace GrandparentOverlap

/-! ## The bytes between two keys -/

open List

/-- The total a policy reads for the endpoints satisfying `p`, the first ones. -/
def through (p : Key → Bool) (totals : List (Key × ℕ)) : ℕ :=
  let count := partitionPoint (fun e => p e.1) totals
  if count = 0 then 0 else (totals[count - 1]?.map (·.2)).getD 0

/-- Whether the closed range of a file, when it is known, meets `[lower, upper]`. -/
def intersects (lower upper : Key) (file : FileMeta) : Bool :=
  (completeBounds file).any fun bounds => decide (bounds.1 ≤ upper ∧ lower ≤ bounds.2)

/-- The size of all the files. -/
def sizeOf (files : List FileMeta) : ℕ := (files.map FileMeta.sizeBytes).sum

variable {files : List FileMeta} {p : Key → Bool} {lower upper : Key}

theorem of_runningTotals (total : ℕ) (l : List (Key × ℕ)) :
    let totals := runningTotals total l
    let count := partitionPoint (fun e => p e.1) totals
    (if count = 0 then total else (totals[count - 1]?.map (·.2)).getD 0) =
      total + ((l.takeWhile fun e => p e.1).map (·.2)).sum := by
  induction l generalizing total with
  | nil => simp [runningTotals, partitionPoint]
  | cons e l ih =>
    by_cases he : p e.1
    · -- The count is one more than that of the rest, which starts from the new total.
      have hrest := ih (total + e.2)
      simp only [runningTotals, partitionPoint, takeWhile_cons, he, if_true, length_cons,
        Nat.add_one_ne_zero, if_false, Nat.add_sub_cancel, map_cons, sum_cons] at hrest ⊢
      rw [← Nat.add_assoc, ← hrest]
      rw [getElem?_cons]
      split_ifs with hcount <;> simp [hcount]
    · simp [runningTotals, partitionPoint, he]

/-- The total read for a downward closed set of keys sums up the endpoints there. -/
theorem through_prefixSums (hp : ∀ {k k'}, k ≤ k' → p k' → p k) (l : List (Key × ℕ)) :
    through p (prefixSums l) = ((l.filter fun e => p e.1).map (·.2)).sum := by
  have hsorted := l.pairwise_insertionSort fun left right : Key × ℕ => left.1 ≤ right.1
  have htotal := of_runningTotals (p := p) 0
    (l.insertionSort fun left right : Key × ℕ => left.1 ≤ right.1)
  rw [takeWhile_eq_filter (hsorted.imp hp), Nat.zero_add] at htotal
  exact htotal.trans (((perm_insertionSort _ l).filter _).map _).sum_eq

/-- The bytes of the files with an endpoint in a downward closed set of keys. -/
theorem through_endpoints (hp : ∀ {k k'}, k ≤ k' → p k' → p k) (endpoint : Key × Key → Key) :
    through p (prefixSums (files.filterMap fun f =>
        (completeBounds f).map fun bounds => (endpoint bounds, f.sizeBytes))) =
      sizeOf (files.filter fun f => (completeBounds f).any fun bounds => p (endpoint bounds)) := by
  rw [through_prefixSums hp]
  induction files with
  | nil => rfl
  | cons f files ih =>
    simp only [sizeOf, filterMap_cons, filter_cons] at ih ⊢
    rcases completeBounds f with _ | bounds
    · exact ih
    · by_cases hin : p (endpoint bounds) <;> simp [hin, ih]

theorem le_of_mem_runningTotals {total : ℕ} {l : List (Key × ℕ)} {e : Key × ℕ}
    (he : e ∈ runningTotals total l) : e.2 ≤ total + (l.map (·.2)).sum := by
  induction l generalizing total with
  | nil => cases he
  | cons a l ih =>
    simp only [runningTotals, mem_cons, map_cons, sum_cons] at he ⊢
    rcases he with rfl | he
    · omega
    · have := ih he
      omega

theorem le_of_mem_endpoints {endpoint : Key × Key → Key} {e : Key × ℕ}
    (he : e ∈ prefixSums (files.filterMap fun f =>
      (completeBounds f).map fun bounds => (endpoint bounds, f.sizeBytes))) :
    e.2 + sizeOf (files.filter fun f => (completeBounds f).isNone) ≤ sizeOf files := by
  have hle := le_of_mem_runningTotals he
  rw [((perm_insertionSort _ _).map _).sum_eq, Nat.zero_add] at hle
  refine (Nat.add_le_add_right hle _).trans (Nat.le_of_eq ?_)
  clear he hle
  induction files with
  | nil => rfl
  | cons f files ih =>
    simp only [sizeOf, filterMap_cons, filter_cons, map_cons, sum_cons] at ih ⊢
    rw [← ih]
    rcases completeBounds f with _ | bounds <;> simp <;> omega

/-- A file that has started and not ended meets the interval: none has ended
    before it started. -/
theorem sizeOf_started (hle : lower ≤ upper) :
    sizeOf (files.filter fun f => (completeBounds f).any fun bounds => decide (bounds.1 ≤ upper)) =
      sizeOf (files.filter (intersects lower upper)) + sizeOf (files.filter fun f =>
        (completeBounds f).any fun bounds => decide (bounds.2 < lower)) := by
  induction files with
  | nil => rfl
  | cons f files ih =>
    simp only [sizeOf, filter_cons] at ih ⊢
    cases hf : completeBounds f with
    | none => simp [intersects, hf, ih]
    | some bounds =>
      have hbounds : bounds.1 ≤ bounds.2 := by
        rw [completeBounds] at hf
        split at hf <;> grind
      by_cases hended : bounds.2 < lower
      · have hstarted : bounds.1 ≤ upper := hbounds.trans (hended.le.trans hle)
        simp [intersects, hf, hstarted, hended, not_le.2 hended, ih]
        omega
      · by_cases hstarted : bounds.1 ≤ upper <;>
          simp [intersects, hf, hstarted, hended, not_lt.1 hended, ih]
        omega

theorem sizeOf_le (hsize : ∀ f ∈ files, f.sizeBytes ≤ usizeMax) :
    sizeOf files ≤ files.length * usizeMax := by
  have h := sum_le_card_nsmul (files.map FileMeta.sizeBytes) usizeMax (by simpa using hsize)
  rwa [length_map] at h

/-- The bytes between two keys are those of the files whose range meets the
    interval, with those of the files whose range is unknown, up to the greatest
    number the result can hold. No file has ended that has not started, and no
    sum leaves the range of its type. -/
theorem bytesBetween_spec (maxBytes : ℕ) (hle : lower ≤ upper)
    (hsize : ∀ f ∈ files, f.sizeBytes ≤ usizeMax) (hlength : files.length ≤ usizeMax) :
    let policy := fromFiles files maxBytes
    let started := through (· ≤ upper) policy.starts
    let ended := through (· < lower) policy.ends
    policy.bytesBetween lower upper =
        min (sizeOf (files.filter (intersects lower upper)) +
          sizeOf (files.filter fun f => (completeBounds f).isNone)) usizeMax ∧
      policy.bytesBetween lower upper = min (started - ended + policy.unknownBytes) usizeMax ∧
      ended ≤ started ∧
      ∀ e ∈ policy.starts ++ policy.ends, e.2 + policy.unknownBytes < 2 ^ 128 := by
  intro policy started ended
  have hstarted : started = _ :=
    through_endpoints (fun h hu => decide_eq_true (h.trans (of_decide_eq_true hu))) (·.1)
  have hended : ended = _ :=
    through_endpoints (fun h hu => decide_eq_true (h.trans_lt (of_decide_eq_true hu))) (·.2)
  rw [sizeOf_started hle, ← hended] at hstarted
  refine ⟨?_, rfl, by omega, fun e he => ?_⟩
  · change min (started - ended + policy.unknownBytes) usizeMax = _
    rw [hstarted, Nat.add_sub_cancel]
    rfl
  · have htotal : e.2 + policy.unknownBytes ≤ sizeOf files :=
      (mem_append.1 he).elim le_of_mem_endpoints le_of_mem_endpoints
    have hmax : files.length * usizeMax ≤ usizeMax * usizeMax := Nat.mul_le_mul_right _ hlength
    have hbound : usizeMax * usizeMax < 2 ^ 128 := by decide
    have := sizeOf_le hsize
    omega

/-- Two files around one key, of the greatest size a file can have. -/
def hugeFiles : List FileMeta :=
  let file : FileMeta :=
    { name := "", level := 2, sizeBytes := usizeMax, smallestKey := some [], largestKey := some []
      keyBoundsComplete := true }
  [file, file]

/-- The bytes between two keys are less than those of the files there when
    their sum is above the greatest result. -/
theorem bytesBetween_saturates :
    (fromFiles hugeFiles 1).bytesBetween [] [] <
      sizeOf (hugeFiles.filter (intersects [] [])) +
        sizeOf (hugeFiles.filter fun f => (completeBounds f).isNone) := by
  decide +kernel

theorem bytesBetween_spec_huge : (fromFiles hugeFiles 1).bytesBetween [] [] =
    min (sizeOf (hugeFiles.filter (intersects [] [])) +
      sizeOf (hugeFiles.filter fun f => (completeBounds f).isNone)) usizeMax :=
  (bytesBetween_spec 1 le_rfl (by decide +kernel) (by decide +kernel)).1

end GrandparentOverlap

end Midge
