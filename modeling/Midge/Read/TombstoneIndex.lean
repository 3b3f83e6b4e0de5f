import Midge.Commit.Apply
import Midge.Lib.Intervals
import Midge.Read.Versions

/-!
# The index of the range tombstones of a memtable

A lookup in a memtable needs the newest range tombstone that covers the key. The
index cuts the range tombstones at all their bounds into disjoint fragments, each
with the sequences of the range tombstones that cover it. It is built by the first
lookup after a range deletion, unless the range tombstones nest too deeply; the
lookup then goes through all of them.

Either way a lookup finds what has been inserted (`maxCoveringTombstoneSeq_newest`):
an index answers as the scan does (`build_newest`), and the index that is stored is
used only while it has been built of all range tombstones (`Cached`).
-/

namespace Midge

open List Intervals

/-! ## The index -/

/-- Half-open key interval and the sequences of every tombstone covering it,
    newest first. -/
structure Fragment where
  start : Key
  stop : Key
  seqs : List ℕ
  deriving DecidableEq, Repr

/-- Range tombstones fragmented into disjoint key intervals. -/
structure FragmentedRangeTombstones where
  fragments : List Fragment
  deriving DecidableEq, Repr

namespace FragmentedRangeTombstones

/-- Fragments beyond this many sequence entries per tombstone would cost more
    memory than the linear scan saves in time. -/
def maxSeqEntriesPerTombstone : ℕ := 8

/-- Small tombstone sets may fragment freely. -/
def minSeqEntryAllowance : ℕ := 4096

/-- The end and the sequence of a range tombstone, as the sweep keeps them. -/
def entry (t : RangeTombstone) : Key × ℕ := (t.stop, t.seq)

/-- Sweep over the cells between the bounds. `byStart` are the range tombstones
    still to come, and `active` those whose start is at or before the cell. -/
def sweep (allowance : ℕ) :
    List (Key × Key) → List RangeTombstone → List (Key × ℕ) → ℕ → Option (List Fragment)
  | [], _, _, _ => some []
  | (lo, hi) :: windows, byStart, active, seqEntries =>
    let active := active ++ (byStart.takeWhile (·.start ≤ lo)).map entry
    let byStart := byStart.dropWhile (·.start ≤ lo)
    let active := active.filter (lo < ·.1)
    if active = [] then sweep allowance windows byStart active seqEntries
    else
      let seqEntries := seqEntries + active.length
      if allowance < seqEntries then none
      else do
        let fragments ← sweep allowance windows byStart active seqEntries
        return ⟨lo, hi, (active.map Prod.snd).insertionSort (· ≥ ·)⟩ :: fragments

/-- The range tombstones that are not empty, by their start. -/
def sorted (tombstones : List RangeTombstone) : List RangeTombstone :=
  (tombstones.filter fun t => t.start < t.stop).insertionSort (·.start ≤ ·.start)

/-- Every bound once, in order. -/
def bounds (byStart : List RangeTombstone) : List Key :=
  ((byStart.flatMap fun t => [t.start, t.stop]).insertionSort (· ≤ ·)).destutter (· ≠ ·)

/-- Build the index, or `none` when the tombstones nest too deeply for the memory
    bound. -/
def build (tombstones : List RangeTombstone) : Option FragmentedRangeTombstones := do
  let byStart := sorted tombstones
  let allowance := max (byStart.length * maxSeqEntriesPerTombstone) minSeqEntryAllowance
  let fragments ← sweep allowance (cells (bounds byStart)) byStart [] 0
  return ⟨fragments⟩

/-- The highest sequence visible at `snapshotSeq` among the tombstones covering
    `key`. -/
def maxCoveringSeq (index : FragmentedRangeTombstones) (key : Key) (snapshotSeq : ℕ) :
    Option ℕ := do
  let position := partitionPoint (·.start ≤ key) index.fragments
  let fragment ← if position = 0 then none else index.fragments[position - 1]?
  if fragment.stop ≤ key then none
  else
    let firstVisible := partitionPoint (fun seq => !visibleAt snapshotSeq seq) fragment.seqs
    fragment.seqs[firstVisible]?

end FragmentedRangeTombstones

/-! ## The memtable -/

/-- The fragmented index for a tombstone count; `index` is `none` when the
    tombstones nest too deeply. -/
structure TombstoneIndexCache where
  builtFor : ℕ
  index : Option FragmentedRangeTombstones
  deriving DecidableEq, Repr

/-- A memtable with the index of its range tombstones. -/
structure SkipListMemtable where
  memtable : Memtable
  rangeTombstoneIndex : Option TombstoneIndexCache := none

namespace SkipListMemtable

/-- An empty memtable. -/
def new : SkipListMemtable where
  memtable := ⟨[], [], by simp⟩

/-- Fragment the range tombstones. -/
def indexOf (tombstones : List RangeTombstone) : TombstoneIndexCache :=
  ⟨tombstones.length, FragmentedRangeTombstones.build tombstones⟩

/-- Fragment the current tombstones and publish the result. -/
def rebuildTombstoneIndex (m : SkipListMemtable) : TombstoneIndexCache × SkipListMemtable :=
  let cache := indexOf m.memtable.tombstones
  (cache, { m with rangeTombstoneIndex := some cache })

/-- The highest sequence of a range tombstone visible at `snapshotSeq` that covers
    `key`. -/
def maxCoveringTombstoneSeq (m : SkipListMemtable) (key : Key) (snapshotSeq : ℕ) :
    Option ℕ × SkipListMemtable :=
  let count := m.memtable.tombstones.length
  if count = 0 then (none, m)
  else
    let loaded := (m.rangeTombstoneIndex.filter (·.builtFor = count)).elim
      m.rebuildTombstoneIndex fun cache => (cache, m)
    (loaded.1.index.elim (maxCoveringSeq m.memtable.tombstones key snapshotSeq)
      (·.maxCoveringSeq key snapshotSeq), loaded.2)

/-- What happens to a memtable. A write that is refused leaves it as it is. -/
inductive Event
  | put (key : Key) (value : Value) (seq : ℕ) (expiration : Option ℕ)
  | delete (key : Key) (seq : ℕ)
  | deleteRange (startKey endKey : Key) (seq : ℕ)
  | lookup (key : Key) (snapshotSeq : ℕ)
  /-- A lookup that has fragmented the first range tombstones publishes its index
      when there are already more of them. -/
  | publish (count : ℕ)

/-- One event. -/
def step (m : SkipListMemtable) : Event → SkipListMemtable
  | .put key value seq expiration =>
    { m with
      memtable := (m.memtable.putBytesWithSeq key value seq expiration).toOption.getD m.memtable }
  | .delete key seq =>
    { m with memtable := (m.memtable.deleteBytesWithSeq key seq).toOption.getD m.memtable }
  | .deleteRange startKey endKey seq =>
    { m with memtable := m.memtable.deleteRangeWithSeq startKey endKey seq }
  | .lookup key snapshotSeq => (m.maxCoveringTombstoneSeq key snapshotSeq).2
  | .publish count =>
    { m with rangeTombstoneIndex := some (indexOf (m.memtable.tombstones.take count)) }

/-- All events. -/
def run (events : List Event) : SkipListMemtable := events.foldl step new

end SkipListMemtable

/-! ## An index answers as the scan does -/

namespace FragmentedRangeTombstones

variable {tombstones byStart : List RangeTombstone} {key : Key} {q : ℕ}

theorem mem_bounds {b : Key} : b ∈ bounds byStart ↔ ∃ t ∈ byStart, b = t.start ∨ b = t.stop := by
  have hsorted := pairwise_insertionSort (· ≤ ·) (byStart.flatMap fun t => [t.start, t.stop])
  rw [bounds, hsorted.destutter_eq_dedup, mem_dedup, mem_insertionSort]
  simp

theorem pairwise_bounds : (bounds byStart).Pairwise (· < ·) := by
  have hsorted := pairwise_insertionSort (· ≤ ·) (byStart.flatMap fun t => [t.start, t.stop])
  rw [bounds, hsorted.destutter_eq_dedup]
  have hle := hsorted.sublist (dedup_sublist _)
  exact hle.imp₂ (fun _ _ => lt_of_le_of_ne) (nodup_dedup _)

theorem mem_sorted {t : RangeTombstone} :
    t ∈ sorted tombstones ↔ t ∈ tombstones ∧ t.start < t.stop := by
  simp [sorted]

theorem pairwise_sorted : (sorted tombstones).Pairwise (·.start ≤ ·.start) :=
  pairwise_insertionSort _ _

/-- The range tombstones that are active in the cell from `lo` on. -/
def activeAt (byStart : List RangeTombstone) (lo : Key) : List (Key × ℕ) :=
  (byStart.filter fun t => decide (t.start ≤ lo) && decide (lo < t.stop)).map entry

/-- The fragment of a cell, if any range tombstone is active there. -/
def fragmentAt (byStart : List RangeTombstone) (cell : Key × Key) : Option Fragment :=
  if activeAt byStart cell.1 = [] then none
  else some ⟨cell.1, cell.2, ((activeAt byStart cell.1).map Prod.snd).insertionSort (· ≥ ·)⟩

/-- The sweep has taken the range tombstones that start at or before `lo`, and has
    dropped some of those that end there. -/
structure Swept (taken : List RangeTombstone) (active : List (Key × ℕ)) (lo : Key) : Prop where
  started : ∀ t ∈ taken, t.start ≤ lo
  active_eq : active.filter (lo < ·.1) = (taken.filter (lo < ·.stop)).map entry

section Sweep

variable {taken rest : List RangeTombstone} {active : List (Key × ℕ)} {lo : Key}

theorem activeAt_eq (hstarted : ∀ t ∈ taken, t.start ≤ lo)
    (hsorted : rest.Pairwise (·.start ≤ ·.start)) : activeAt (taken ++ rest) lo =
      ((taken ++ rest.takeWhile (·.start ≤ lo)).filter (lo < ·.stop)).map entry := by
  have hrest : rest.takeWhile (·.start ≤ lo) = rest.filter (·.start ≤ lo) :=
    takeWhile_eq_filter (hsorted.imp fun hle h => decide_eq_true (hle.trans (of_decide_eq_true h)))
  have htaken : taken.filter (·.start ≤ lo) = taken :=
    filter_eq_self.2 fun t ht => decide_eq_true (hstarted t ht)
  rw [activeAt, hrest]
  nth_rewrite 2 [← htaken]
  rw [← filter_append, filter_filter]
  simp only [Bool.and_comm]

/-- One cell of the sweep. -/
theorem Swept.next (h : Swept taken active lo) (hsorted : rest.Pairwise (·.start ≤ ·.start)) :
    (active ++ (rest.takeWhile (·.start ≤ lo)).map entry).filter (lo < ·.1) =
      activeAt (taken ++ rest) lo := by
  rw [activeAt_eq h.started hsorted, filter_append, h.active_eq, filter_map, filter_append,
    map_append]
  rfl

/-- The fragments are those of the cells. -/
theorem of_sweep {allowance seqEntries : ℕ} {cuts : List Key} {fragments : List Fragment}
    (hcuts : cuts.Pairwise (· < ·)) (hsorted : (taken ++ rest).Pairwise (·.start ≤ ·.start))
    (hswept : ∀ lo ∈ cuts, Swept taken active lo)
    (h : sweep allowance (cells cuts) rest active seqEntries = some fragments) :
    fragments = (cells cuts).filterMap (fragmentAt (taken ++ rest)) := by
  induction cuts generalizing taken rest active seqEntries fragments with
  | nil =>
    cases h
    rfl
  | cons lo cuts ih =>
    cases cuts with
    | nil =>
      cases h
      rfl
    | cons hi cuts =>
      obtain ⟨hlo, hcuts⟩ := pairwise_cons.1 hcuts
      have hrest := (pairwise_append.1 hsorted).2.1
      have hfirst := hswept lo (.head _)
      have hall : taken ++ rest.takeWhile (·.start ≤ lo) ++ rest.dropWhile (·.start ≤ lo) =
          taken ++ rest := by rw [append_assoc, takeWhile_append_dropWhile]
      have hnext : ∀ lo' ∈ hi :: cuts, Swept (taken ++ rest.takeWhile (·.start ≤ lo))
          (activeAt (taken ++ rest) lo) lo' := by
        intro lo' hlo'
        have hlt := hlo lo' hlo'
        refine ⟨fun t ht => ?_, ?_⟩
        · refine le_trans ?_ hlt.le
          rcases mem_append.1 ht with ht | ht
          exacts [hfirst.started t ht, by simpa using mem_takeWhile_imp ht]
        · rw [activeAt_eq hfirst.started hrest, filter_map, filter_filter]
          congr 1
          refine filter_congr fun t _ => ?_
          by_cases hstop : lo' < t.stop
          · simp [entry, hstop, hlt.trans hstop]
          · simp [entry, hstop]
      have hih : ∀ {seqEntries : ℕ} {fragments : List Fragment},
          sweep allowance (cells (hi :: cuts)) (rest.dropWhile (·.start ≤ lo))
            (activeAt (taken ++ rest) lo) seqEntries = some fragments →
          fragments = (cells (hi :: cuts)).filterMap (fragmentAt (taken ++ rest)) := by
        intro seqEntries fragments h
        rw [← hall]
        exact ih hcuts (hall.symm ▸ hsorted) hnext h
      change sweep allowance ((lo, hi) :: cells (hi :: cuts)) rest active seqEntries = _ at h
      change _ = ((lo, hi) :: cells (hi :: cuts)).filterMap _
      simp only [sweep, hfirst.next hrest] at h
      rw [filterMap_cons, fragmentAt]
      split_ifs at h ⊢
      · exact hih h
      · obtain ⟨fragments, hfragments, h⟩ := Option.bind_eq_some_iff.1 h
        cases h
        rw [hih hfragments]

end Sweep

/-- A lookup finds the fragment with the key. -/
theorem maxCoveringSeq_of_fragments {fragments : List Fragment}
    (hsorted : fragments.Pairwise (·.stop ≤ ·.start)) (hlt : ∀ f ∈ fragments, f.start < f.stop)
    (key : Key) (q : ℕ) :
    (∃ f ∈ fragments, f.start ≤ key ∧ key < f.stop ∧ maxCoveringSeq ⟨fragments⟩ key q =
      f.seqs[partitionPoint (fun seq => !visibleAt q seq) f.seqs]?) ∨
    (∀ f ∈ fragments, f.start ≤ key → f.stop ≤ key) ∧ maxCoveringSeq ⟨fragments⟩ key q = none := by
  have htake := take_partitionPoint (fun f : Fragment => decide (f.start ≤ key)) fragments
  by_cases hfound : ∃ f ∈ fragments, f.start ≤ key ∧ key < f.stop
  · obtain ⟨f, hf, hstart, hstop⟩ := hfound
    refine .inl ⟨f, hf, hstart, hstop, ?_⟩
    obtain ⟨before, after, rfl⟩ := append_of_mem hf
    rw [pairwise_append, pairwise_cons] at hsorted
    have hbefore : ∀ g ∈ before, g.start ≤ key := fun g hg =>
      ((hlt g (by simp [hg])).le.trans (hsorted.2.2 g hg f (.head _))).trans hstart
    have hafter : ∀ g ∈ after, ¬ g.start ≤ key := fun g hg =>
      not_le.2 (hstop.trans_le (hsorted.2.1.1 g hg))
    have hposition : partitionPoint (fun g : Fragment => decide (g.start ≤ key))
        (before ++ f :: after) = before.length + 1 := by
      rw [partitionPoint, takeWhile_append_of_pos (by simpa using hbefore),
        takeWhile_cons_of_pos (by simpa using hstart), takeWhile_eq_nil_iff.2 (by
          intro hpos
          simpa using hafter _ (getElem_mem hpos))]
      simp
    simp [maxCoveringSeq, hposition, hstop]
  · push Not at hfound
    refine .inr ⟨hfound, ?_⟩
    rw [maxCoveringSeq]
    cases hposition : partitionPoint (fun f : Fragment => decide (f.start ≤ key)) fragments with
    | zero => rfl
    | succ n =>
      cases hget : fragments[n]? with
      | none => simp [hget]
      | some f =>
        have hmem : f ∈ fragments.takeWhile fun f => decide (f.start ≤ key) := by
          rw [← htake, hposition]
          exact mem_of_getElem? (i := n) (by rw [getElem?_take_of_lt (Nat.lt_succ_self n), hget])
        have hstop := hfound f (mem_of_getElem? hget) (by simpa using mem_takeWhile_imp hmem)
        simp [hget, hstop]

/-- The first of the sequences, newest first, that the snapshot sees. -/
theorem first_visible {seqs : List ℕ} (h : seqs.Pairwise (· ≥ ·)) (q : ℕ) :
    IsNewest id {seq | seq ∈ seqs ∧ visibleAt q seq}
      seqs[partitionPoint (fun seq => !visibleAt q seq) seqs]? := by
  induction seqs with
  | nil => simp [IsNewest]
  | cons seq seqs ih =>
    obtain ⟨hseq, hseqs⟩ := pairwise_cons.1 h
    by_cases hvisible : visibleAt q seq
    · have hfirst : partitionPoint (fun seq => !visibleAt q seq) (seq :: seqs) = 0 := by
        simp [partitionPoint, hvisible]
      rw [hfirst]
      refine ⟨⟨.head _, hvisible⟩, ?_⟩
      rintro other ⟨hother, -⟩
      rcases mem_cons.1 hother with rfl | hother
      exacts [le_rfl, hseq other hother]
    · have hnext : partitionPoint (fun seq => !visibleAt q seq) (seq :: seqs) =
          partitionPoint (fun seq => !visibleAt q seq) seqs + 1 := by
        simp [partitionPoint, hvisible]
      have hset : {s | s ∈ seq :: seqs ∧ visibleAt q s} = {s | s ∈ seqs ∧ visibleAt q s} := by
        ext s
        refine and_congr_left fun hs => ?_
        rw [mem_cons, or_iff_right]
        rintro rfl
        exact hvisible hs
      rw [hnext, hset]
      exact ih hseqs

theorem of_fragmentAt {cell : Key × Key} {f : Fragment} (h : fragmentAt byStart cell = some f) :
    f.start = cell.1 ∧ f.stop = cell.2 ∧ f.seqs.Pairwise (· ≥ ·) ∧
      ∀ seq, seq ∈ f.seqs ↔ ∃ t ∈ byStart, t.start ≤ cell.1 ∧ cell.1 < t.stop ∧ t.seq = seq := by
  rw [fragmentAt] at h
  split_ifs at h
  cases h
  refine ⟨rfl, rfl, pairwise_insertionSort _ _, fun seq => ?_⟩
  simp [activeAt, entry, and_assoc]

/-- The fragments of all cells. -/
def fragmentsOf (byStart : List RangeTombstone) : List Fragment :=
  (cells (bounds byStart)).filterMap (fragmentAt byStart)

theorem eq_of_build {index : FragmentedRangeTombstones} (h : build tombstones = some index) :
    index = ⟨fragmentsOf (sorted tombstones)⟩ := by
  obtain ⟨fragments, hsweep, h⟩ := Option.bind_eq_some_iff.1 h
  cases h
  rw [@of_sweep [] (sorted tombstones) _ _ _ _ _ pairwise_bounds pairwise_sorted
    (fun lo _ => ⟨by simp, rfl⟩) hsweep]
  rfl

theorem lt_of_mem_fragmentsOf : ∀ f ∈ fragmentsOf byStart, f.start < f.stop := by
  intro f hf
  obtain ⟨cell, hcell, hf⟩ := mem_filterMap.1 hf
  obtain ⟨hstart, hstop, -⟩ := of_fragmentAt hf
  rw [hstart, hstop]
  exact (of_mem_cells pairwise_bounds hcell).1

theorem pairwise_fragmentsOf : (fragmentsOf byStart).Pairwise (·.stop ≤ ·.start) := by
  refine pairwise_filterMap.2 ((pairwise_cells pairwise_bounds).imp fun hle f hf g hg => ?_)
  rw [(of_fragmentAt hf).2.1, (of_fragmentAt hg).1]
  exact hle

/-- No bound is inside a cell, so the range tombstones over it are those over a key in
    it. -/
theorem covers_iff {cell : Key × Key} (hcell : cell ∈ cells (bounds byStart))
    (hstart : cell.1 ≤ key) (hstop : key < cell.2) {t : RangeTombstone} (ht : t ∈ byStart) :
    t.start ≤ cell.1 ∧ cell.1 < t.stop ↔ t.Covers key := by
  obtain ⟨-, hout⟩ := of_mem_cells pairwise_bounds hcell
  have hstart' := hout t.start (mem_bounds.2 ⟨t, ht, .inl rfl⟩)
  have hstop' := hout t.stop (mem_bounds.2 ⟨t, ht, .inr rfl⟩)
  constructor
  · rintro ⟨hle, hlt⟩
    exact ⟨hle.trans hstart, hstop.trans_le (hstop'.resolve_left (not_le.2 hlt))⟩
  · rintro ⟨hle, hlt⟩
    exact ⟨hstart'.resolve_right (not_le.2 (hle.trans_lt hstop)), hstart.trans_lt hlt⟩

/-- The index finds the newest range tombstone that covers the key. -/
theorem build_newest {index : FragmentedRangeTombstones} (h : build tombstones = some index) :
    IsNewest id (coversAt tombstones key q) (index.maxCoveringSeq key q) := by
  obtain rfl := eq_of_build h
  have hcovers : ∀ seq, seq ∈ coversAt tombstones key q ↔
      (∃ t ∈ sorted tombstones, t.Covers key ∧ t.seq = seq) ∧ visibleAt q seq := by
    intro seq
    constructor
    · rintro ⟨t, ht, hvisible, hcovers, rfl⟩
      exact ⟨⟨t, mem_sorted.2 ⟨ht, hcovers.1.trans_lt hcovers.2⟩, hcovers, rfl⟩, hvisible⟩
    · rintro ⟨⟨t, ht, hcovers, rfl⟩, hvisible⟩
      exact ⟨t, (mem_sorted.1 ht).1, hvisible, hcovers, rfl⟩
  rcases maxCoveringSeq_of_fragments pairwise_fragmentsOf lt_of_mem_fragmentsOf key q with
    ⟨f, hf, hstart, hstop, heq⟩ | ⟨hnone, heq⟩
  · obtain ⟨cell, hcell, hf⟩ := mem_filterMap.1 hf
    obtain ⟨hfstart, hfstop, hdesc, hseqs⟩ := of_fragmentAt hf
    rw [hfstart] at hstart
    rw [hfstop] at hstop
    have hset : coversAt tombstones key q = {seq | seq ∈ f.seqs ∧ visibleAt q seq} := by
      ext seq
      rw [hcovers, Set.mem_ofPred_eq, hseqs]
      refine and_congr_left fun _ => exists_congr fun t => and_congr_right fun ht => ?_
      rw [← and_assoc, covers_iff hcell hstart hstop ht]
    rw [heq, hset]
    exact first_visible hdesc q
  · rw [heq]
    refine Set.eq_empty_iff_forall_notMem.2 fun seq hseq => ?_
    obtain ⟨⟨t, ht, hcover, rfl⟩, -⟩ := (hcovers seq).1 hseq
    obtain ⟨cell, hcell, hstart, hstop⟩ := exists_mem_cells (mem_bounds.2 ⟨t, ht, .inl rfl⟩)
      (mem_bounds.2 ⟨t, ht, .inr rfl⟩) hcover.1 hcover.2 pairwise_bounds
    -- The range tombstone is active in the cell of the key, which is a fragment then.
    have hactive := (covers_iff hcell hstart hstop ht).2 hcover
    have hne : activeAt (sorted tombstones) cell.1 ≠ [] := by
      refine ne_nil_of_mem (mem_map_of_mem (mem_filter.2 ⟨ht, ?_⟩))
      simpa using hactive
    exact hstop.not_ge (hnone _ (mem_filterMap.2 ⟨cell, hcell, if_neg hne⟩) hstart)

end FragmentedRangeTombstones

/-! ## Lookups at any time -/

namespace SkipListMemtable

open FragmentedRangeTombstones

/-- The range tombstones that have been inserted. -/
def inserted : Event → Option RangeTombstone
  | .deleteRange startKey endKey seq =>
    if endKey ≤ startKey then none else some ⟨startKey, endKey, seq⟩
  | _ => none

/-- The stored index has been built of the first range tombstones. -/
def Cached (m : SkipListMemtable) : Prop :=
  ∀ cache ∈ m.rangeTombstoneIndex, ∃ first, first <+: m.memtable.tombstones ∧ cache = indexOf first

variable {m : SkipListMemtable}

/-- An index is used only if it has been built of all range tombstones. -/
theorem Cached.loaded (h : m.Cached) : ∃ stored,
    (m.rangeTombstoneIndex.filter (·.builtFor = m.memtable.tombstones.length)).elim
      m.rebuildTombstoneIndex (fun cache => (cache, m)) =
        (indexOf m.memtable.tombstones, { m with rangeTombstoneIndex := stored }) ∧
      Cached { m with rangeTombstoneIndex := stored } := by
  cases hfound : m.rangeTombstoneIndex.filter (·.builtFor = m.memtable.tombstones.length) with
  | none =>
    refine ⟨_, rfl, ?_⟩
    rintro _ ⟨⟩
    exact ⟨_, prefix_rfl, rfl⟩
  | some cache =>
    obtain ⟨hcache, hbuilt⟩ := Option.filter_eq_some_iff.1 hfound
    obtain ⟨first, hfirst, rfl⟩ := h cache hcache
    obtain rfl := hfirst.eq_of_length (of_decide_eq_true hbuilt)
    exact ⟨m.rangeTombstoneIndex, rfl, h⟩

theorem Cached.lookup (h : m.Cached) (key : Key) (q : ℕ) :
    IsNewest id (coversAt m.memtable.tombstones key q) (m.maxCoveringTombstoneSeq key q).1 ∧
      (m.maxCoveringTombstoneSeq key q).2.memtable = m.memtable ∧
      (m.maxCoveringTombstoneSeq key q).2.Cached := by
  obtain ⟨stored, hloaded, hstored⟩ := h.loaded
  rw [maxCoveringTombstoneSeq]
  simp only [hloaded]
  split_ifs with hnone
  · rw [length_eq_zero_iff.1 hnone]
    exact ⟨by simp [IsNewest, coversAt], rfl, h⟩
  · refine ⟨?_, rfl, hstored⟩
    cases hbuild : build m.memtable.tombstones with
    | none =>
      simp only [indexOf, hbuild]
      exact maxCoveringSeq_newest _
    | some index =>
      simp only [indexOf, hbuild]
      exact build_newest hbuild

theorem tombstones_insert (m : Memtable) (v : RawSstVersion) :
    ((m.insert v).toOption.getD m).tombstones = m.tombstones := by
  rw [Memtable.insert]
  split_ifs <;> rfl

/-- One event. -/
theorem Cached.step (h : m.Cached) (event : Event) : (m.step event).Cached ∧
    (m.step event).memtable.tombstones = m.memtable.tombstones ++ (inserted event).toList := by
  cases event with
  | put | delete =>
    simp only [Cached, SkipListMemtable.step, Memtable.putBytesWithSeq, Memtable.deleteBytesWithSeq,
      tombstones_insert]
    exact ⟨h, (append_nil _).symm⟩
  | deleteRange startKey endKey seq =>
    simp only [Cached, SkipListMemtable.step, Memtable.deleteRangeWithSeq, inserted]
    split_ifs
    · exact ⟨h, (append_nil _).symm⟩
    · refine ⟨fun cache hcache => ?_, rfl⟩
      obtain ⟨first, hfirst, hbuilt⟩ := h cache hcache
      exact ⟨first, hfirst.trans ( prefix_append _ _), hbuilt⟩
  | lookup key q =>
    obtain ⟨-, hmemtable, hcached⟩ := h.lookup key q
    exact ⟨hcached, (congrArg Memtable.tombstones hmemtable).trans (append_nil _).symm⟩
  | publish count =>
    refine ⟨?_, (append_nil _).symm⟩
    rintro _ ⟨⟩
    exact ⟨_, take_prefix _ _, rfl⟩

/-- All events. -/
theorem run_spec (events : List Event) :
    (run events).Cached ∧ (run events).memtable.tombstones = events.filterMap inserted := by
  induction events using List.reverseRecOn with
  | nil => exact ⟨by simp [Cached, run, new], rfl⟩
  | append_singleton events event ih =>
    obtain ⟨hcached, htombstones⟩ := ih
    rw [run, foldl_concat, filterMap_append, ← htombstones]
    obtain ⟨hcached, htombstones⟩ := hcached.step event
    refine ⟨hcached, htombstones.trans ?_⟩
    simp only [filterMap_cons, filterMap_nil]
    cases inserted event <;> rfl

/-- After any writes, lookups and publications, a lookup finds the greatest sequence at
    or below the snapshot of the ranges that have been deleted and cover the key. -/
theorem maxCoveringTombstoneSeq_newest (events : List Event) (key : Key) (q : ℕ)
    -- Sequences are `u64`s.
    (hseqs : ∀ startKey endKey seq, .deleteRange startKey endKey seq ∈ events → seq ≤ usizeMax) :
    IsNewest id {seq | seq ≤ q ∧ ∃ startKey endKey,
        Event.deleteRange startKey endKey seq ∈ events ∧ startKey ≤ key ∧ key < endKey}
      ((run events).maxCoveringTombstoneSeq key q).1 := by
  obtain ⟨hcached, htombstones⟩ := run_spec events
  obtain ⟨hnewest, -⟩ := hcached.lookup key q
  convert hnewest
  rw [htombstones]
  ext seq
  constructor
  · rintro ⟨hle, startKey, endKey, hmem, hstart, hstop⟩
    refine ⟨⟨startKey, endKey, seq⟩, mem_filterMap.2 ⟨_, hmem, ?_⟩, ?_, ⟨hstart, hstop⟩, rfl⟩
    · exact if_neg (not_le.2 (hstart.trans_lt hstop))
    · simp [RangeTombstone.visibleAt, hle]
  · rintro ⟨t, ht, hvisible, ⟨hstart, hstop⟩, rfl⟩
    obtain ⟨event, hmem, hevent⟩ := mem_filterMap.1 ht
    cases event with
    | deleteRange startKey endKey seq =>
      rw [inserted] at hevent
      split_ifs at hevent
      cases hevent
      refine ⟨?_, startKey, endKey, hmem, hstart, hstop⟩
      rcases Bool.or_eq_true_iff.1 hvisible with hlatest | hle
      · exact (hseqs _ _ _ hmem).trans (beq_iff_eq.1 hlatest).ge
      · exact of_decide_eq_true hle
    | put | delete | lookup | publish => cases hevent

/-- A nested range, deleted after an index has been built. -/
theorem maxCoveringTombstoneSeq_newest_nested :
    let events : List Event := [.deleteRange [byte 1] [byte 9] 5, .lookup [byte 3] 9,
      .put [byte 3] [] 6 none, .deleteRange [byte 2] [byte 4] 7, .publish 1]
    (run events).rangeTombstoneIndex.isSome ∧
      IsNewest id {seq | seq ≤ 9 ∧ ∃ startKey endKey,
        Event.deleteRange startKey endKey seq ∈ events ∧ startKey ≤ [byte 3] ∧ [byte 3] < endKey}
        (some 7) := by
  intro events
  have hanswer : ((run events).maxCoveringTombstoneSeq [byte 3] 9).1 = some 7 := by decide +kernel
  rw [← hanswer]
  refine ⟨rfl, maxCoveringTombstoneSeq_newest events [byte 3] 9 fun startKey endKey seq hmem => ?_⟩
  simp only [events, mem_cons, reduceCtorEq, not_mem_nil, or_false, false_or] at hmem
  rcases hmem with ⟨-, -, rfl⟩ | ⟨-, -, rfl⟩ <;> decide

end SkipListMemtable

end Midge
