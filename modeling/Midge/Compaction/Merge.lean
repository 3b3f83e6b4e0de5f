import Midge.Types
import Midge.Lib.KWayMerge

/-!
# The compaction event merge

Compaction reads every input SST as a stream of *events* in key order: the
versions of the file, and the two ends of each of its range tombstones. Inputs
are merged by a heap of stream heads (`EventMergeIterator`), that yields the
events of all the inputs in key order; at one key, the ranges ending there come
first, then the ranges starting there, then the versions, newest first.

The files of a level are chained into one stream, whose keys are checked to
stay in order (`chainedSstEventCursor`).
-/

namespace Midge

open KWayMerge List Exec

/-- A single logical version of a key, as compaction observes it. -/
abbrev CompactionVersion := RawSstVersion

/-- What tombstone garbage collection may drop. -/
structure TombstoneGcPolicy where
  snapshotHorizon : Option ℕ
  pointEligible : Bool
  rangeEligible : Bool
  deriving DecidableEq, Repr

/-- An event of a compaction input. -/
inductive CompactionEvent
  /-- A legal partition boundary with no logical mutation. -/
  | boundary (key : Key)
  | rangeEnd (tombstone : RangeTombstone)
  | rangeStart (tombstone : RangeTombstone)
  | version (version : CompactionVersion)
  deriving DecidableEq, Repr

namespace CompactionEvent

/-- The key at which the event happens. -/
def key : CompactionEvent → Key
  | boundary key => key
  | rangeEnd tombstone => tombstone.stop
  | rangeStart tombstone => tombstone.start
  | version v => v.key

/-- The sequence of the mutation. -/
def sequence : CompactionEvent → ℕ
  | boundary _ => 0
  | rangeEnd tombstone => tombstone.seq
  | rangeStart tombstone => tombstone.seq
  | version v => v.seq

/-- The order of the events at one key. -/
def kindRank : CompactionEvent → ℕ
  | boundary _ => 3
  | rangeEnd _ => 0
  | rangeStart _ => 1
  | version _ => 2

/-- The version of a version event. -/
def version? : CompactionEvent → Option CompactionVersion
  | version v => some v
  | _ => none

/-- The tombstone of a range start. -/
def rangeStart? : CompactionEvent → Option RangeTombstone
  | rangeStart tombstone => some tombstone
  | _ => none

/-- The tombstone of a range end. -/
def rangeEnd? : CompactionEvent → Option RangeTombstone
  | rangeEnd tombstone => some tombstone
  | _ => none

@[simp]
theorem version?_eq_some {e : CompactionEvent} {v : CompactionVersion} :
    e.version? = some v ↔ e = version v := by
  cases e <;> simp [version?]

@[simp]
theorem rangeStart?_eq_some {e : CompactionEvent} {t : RangeTombstone} :
    e.rangeStart? = some t ↔ e = rangeStart t := by
  cases e <;> simp [rangeStart?]

@[simp]
theorem rangeEnd?_eq_some {e : CompactionEvent} {t : RangeTombstone} :
    e.rangeEnd? = some t ↔ e = rangeEnd t := by
  cases e <;> simp [rangeEnd?]

end CompactionEvent

/-- A stream of events, each read or failed. -/
abbrev CompactionEventCursor := List (MidgeResult CompactionEvent)

/-- The events are in key order. -/
abbrev EventsSorted (events : List CompactionEvent) : Prop :=
  (events.map CompactionEvent.key).Pairwise (· ≤ ·)

/-! ## The events of an SST -/

/-- The order in which an SST sorts its range events. -/
def rangeEventLe (left right : CompactionEvent) : Prop :=
  left.key < right.key ∨ (left.key = right.key ∧ (left.kindRank < right.kindRank ∨
    (left.kindRank = right.kindRank ∧ right.sequence ≤ left.sequence)))

instance : DecidableRel rangeEventLe := fun _ _ => inferInstanceAs (Decidable (_ ∨ _))

/-- The two ends of every range tombstone, in order. -/
def rangeEvents (tombstones : List RangeTombstone) : List CompactionEvent :=
  (tombstones.flatMap fun t => [.rangeStart t, .rangeEnd t]).insertionSort rangeEventLe

/-- Whether a range event comes before a version. -/
def eventPrecedes (v : CompactionVersion) (e : CompactionEvent) : Bool :=
  decide (e.key < v.key) || (e.key == v.key && decide (e.kindRank < 2))

/-- The range events interleaved with the versions: before each version, the
    events that precede it. -/
def interleave : List CompactionEvent → List CompactionVersion → List CompactionEvent
  | events, [] => events
  | events, v :: versions =>
    events.takeWhile (eventPrecedes v) ++
      .version v :: interleave (events.dropWhile (eventPrecedes v)) versions

/-- The events of one SST (`SstEventCursor`). -/
def sstEvents (sst : SstContents) : List CompactionEvent :=
  interleave (rangeEvents sst.tombstones) sst.versions

theorem mem_interleave {e : CompactionEvent} :
    ∀ {versions : List CompactionVersion} {events : List CompactionEvent},
      e ∈ interleave events versions ↔ e ∈ events ∨ ∃ v ∈ versions, e = .version v
  | [], events => by simp [interleave]
  | v :: versions, events => by
    have hsplit : e ∈ events ↔
        e ∈ events.takeWhile (eventPrecedes v) ∨ e ∈ events.dropWhile (eventPrecedes v) := by
      rw [← mem_append, takeWhile_append_dropWhile]
    simp only [interleave, mem_append, mem_cons, mem_interleave, hsplit,
      exists_eq_or_imp]
    tauto

theorem filterMap_version?_interleave {versions : List CompactionVersion}
    {events : List CompactionEvent} (h : ∀ e ∈ events, e.version? = none) :
    (interleave events versions).filterMap CompactionEvent.version? = versions := by
  induction versions generalizing events with
  | nil => simpa [interleave] using h
  | cons v versions ih =>
    have htake : (events.takeWhile (eventPrecedes v)).filterMap CompactionEvent.version? = [] :=
      filterMap_eq_nil_iff.2 fun e he => h e ((takeWhile_sublist _).mem he)
    rw [interleave, filterMap_append, htake, nil_append, filterMap_cons,
      ih fun e he => h e ((dropWhile_sublist _).mem he)]
    rfl

theorem filterMap_rangeStart?_interleave {versions : List CompactionVersion}
    {events : List CompactionEvent} :
    (interleave events versions).filterMap CompactionEvent.rangeStart? =
      events.filterMap CompactionEvent.rangeStart? := by
  induction versions generalizing events with
  | nil => rfl
  | cons v versions ih =>
    have hsplit := takeWhile_append_dropWhile (p := eventPrecedes v) (l := events)
    nth_rewrite 2 [← hsplit]
    rw [interleave, filterMap_append, filterMap_append, filterMap_cons, ih]
    rfl

theorem key_le_of_eventPrecedes {v : CompactionVersion} {e : CompactionEvent}
    (h : eventPrecedes v e) : e.key ≤ v.key := by
  simp only [eventPrecedes, Bool.or_eq_true, decide_eq_true_eq, Bool.and_eq_true, beq_iff_eq] at h
  rcases h with h | h
  exacts [h.le, h.1.le]

/-- Interleaving keeps the key order. -/
theorem pairwise_interleave {versions : List CompactionVersion} {events : List CompactionEvent}
    (hv : (versions.map RawSstVersion.key).Pairwise (· ≤ ·))
    (he : EventsSorted events) : EventsSorted (interleave events versions) := by
  rw [pairwise_map] at hv
  simp only [EventsSorted, pairwise_map] at *
  induction versions generalizing events with
  | nil => simpa [interleave] using he
  | cons v versions ih =>
    rw [pairwise_cons] at hv
    have hsplit := takeWhile_append_dropWhile (p := eventPrecedes v) (l := events)
    rw [← hsplit, pairwise_append] at he
    obtain ⟨htake, hdrop, hcross⟩ := he
    -- What is left starts at an event that does not precede the version.
    have hlater : ∀ e ∈ events.dropWhile (eventPrecedes v), v.key ≤ e.key := by
      intro e hmem
      cases hd : events.dropWhile (eventPrecedes v) with
      | nil => simp [hd] at hmem
      | cons e₀ l =>
        have hnot : ¬ eventPrecedes v e₀ := by
          have := head?_dropWhile_not (eventPrecedes v) events
          simpa [hd] using this
        have h₀ : v.key ≤ e₀.key := by
          refine not_lt.1 fun hlt => hnot ?_
          simp [eventPrecedes, hlt]
        rw [hd, pairwise_cons] at hdrop
        rw [hd, mem_cons] at hmem
        rcases hmem with rfl | hmem
        exacts [h₀, h₀.trans (hdrop.1 e hmem)]
    rw [interleave, pairwise_append, pairwise_cons]
    refine ⟨htake, ⟨fun e hmem => ?_, ih hv.2 hdrop⟩, fun a ha e hmem => ?_⟩
    · rcases mem_interleave.1 hmem with hmem | ⟨w, hw, rfl⟩
      exacts [hlater e hmem, hv.1 w hw]
    · have hav := key_le_of_eventPrecedes (mem_takeWhile_imp ha)
      rw [mem_cons] at hmem
      rcases hmem with rfl | hmem
      · exact hav
      · rcases mem_interleave.1 hmem with hmem | ⟨w, hw, rfl⟩
        exacts [hcross a ha e hmem, hav.trans (hv.1 w hw)]

theorem mem_rangeEvents {tombstones : List RangeTombstone} {e : CompactionEvent} :
    e ∈ rangeEvents tombstones ↔ ∃ t ∈ tombstones, e = .rangeStart t ∨ e = .rangeEnd t := by
  simp [rangeEvents]

theorem pairwise_rangeEvents (tombstones : List RangeTombstone) :
    EventsSorted (rangeEvents tombstones) := by
  have htotal : Std.Total rangeEventLe := ⟨fun a b => by grind [rangeEventLe]⟩
  have htrans : IsTrans CompactionEvent rangeEventLe := ⟨fun a b c => by grind [rangeEventLe]⟩
  rw [EventsSorted, pairwise_map, rangeEvents]
  refine (pairwise_insertionSort rangeEventLe _).imp fun h => ?_
  rcases h with h | h
  exacts [h.le, h.1.le]

/-- The version events of an SST are its versions. -/
theorem filterMap_version?_sstEvents (sst : SstContents) :
    (sstEvents sst).filterMap CompactionEvent.version? = sst.versions := by
  refine filterMap_version?_interleave fun e he => ?_
  obtain ⟨t, -, rfl | rfl⟩ := mem_rangeEvents.1 he <;> rfl

/-- The range starts of an SST are its range tombstones. -/
theorem filterMap_rangeStart?_sstEvents (sst : SstContents) :
    ((sstEvents sst).filterMap CompactionEvent.rangeStart?).Perm sst.tombstones := by
  rw [sstEvents, filterMap_rangeStart?_interleave, rangeEvents]
  refine ((perm_insertionSort _ _).filterMap _).trans (.of_eq ?_)
  induction sst.tombstones with
  | nil => rfl
  | cons t tombstones ih =>
    rw [flatMap_cons, filterMap_append, ih]
    rfl

/-- The events of an SST are in key order. -/
theorem pairwise_sstEvents {sst : SstContents}
    (h : (sst.versions.map RawSstVersion.key).Pairwise (· ≤ ·)) : EventsSorted (sstEvents sst) :=
  pairwise_interleave h (pairwise_rangeEvents _)

/-- The files a compaction can open. -/
abbrev SstDirectory := String → MidgeResult SstContents

/-- The stream of a single file. -/
def sstEventCursor (dir : SstDirectory) (filename : String) : MidgeResult CompactionEventCursor :=
  (dir filename).map fun sst => (sstEvents sst).map .ok

/-- The events of the files one after the other, each opened when reached. -/
def chainedEvents (dir : SstDirectory) : List String → CompactionEventCursor
  | [] => []
  | filename :: files =>
    match dir filename with
    | .error e => .error e :: chainedEvents dir files
    | .ok sst => (sstEvents sst).map .ok ++ chainedEvents dir files

/-- Fail at every event before the last key read. -/
def checkKeyOrder : Option Key → CompactionEventCursor → CompactionEventCursor
  | _, [] => []
  | lastKey, .error e :: cursor => .error e :: checkKeyOrder lastKey cursor
  | lastKey, .ok e :: cursor =>
    if lastKey.any (e.key < ·) then
      .error (.corruption "chained compaction level is not key ordered") ::
        checkKeyOrder lastKey cursor
    else
      .ok e :: checkKeyOrder (some e.key) cursor

/-- The stream of a chain of files (`ChainedSstEventCursor`). -/
def chainedSstEventCursor (dir : SstDirectory) (files : List String) : CompactionEventCursor :=
  checkKeyOrder none (chainedEvents dir files)

/-- The input streams of a compaction: one per file of L0 or of a repair, and
    one chain per deeper level. -/
def collectCompactionStreamInputs (dir : SstDirectory) (sourceFiles targetFiles : List String)
    (sourceLevel : ℕ) (sameLevelRepair : Bool) : MidgeExec (List CompactionEventCursor) := do
  Exec.ask
  let sources ← (if sourceLevel = 0 ∨ sameLevelRepair then
      sourceFiles.mapM fun filename => do
        Exec.ask
        Exec.ofExcept (sstEventCursor dir filename)
    else if sourceFiles = [] then
      pure []
    else
      pure [chainedSstEventCursor dir sourceFiles])
  return sources ++ if targetFiles = [] then [] else [chainedSstEventCursor dir targetFiles]

/-! ## Merging -/

/-- One sorted input of the merge, with its head read. -/
abbrev EventMergeInput := Input MidgeError CompactionEvent

/-- The order of heap items, the greatest being taken first: smallest key,
    then smallest kind rank, then greatest sequence, then smallest input. -/
def versionHeapItemCmp (a b : EventMergeInput) : Ordering :=
  match cmp a.head.key b.head.key with
  | .lt => .gt
  | .gt => .lt
  | .eq =>
    match cmp b.head.kindRank a.head.kindRank with
    | .eq =>
      match cmp a.head.sequence b.head.sequence with
      | .lt => .lt
      | .gt => .gt
      | .eq => cmp b.idx a.idx
    | ordering => ordering

/-- Whether the heap yields `a` no later than `b`. -/
def heapLe (a b : EventMergeInput) : Bool := versionHeapItemCmp a b != .lt

/-- The merge of the inputs of a compaction. -/
structure EventMergeIterator where
  heap : List EventMergeInput

namespace EventMergeIterator

/-- Open the merge, reading one event of every input. Each read polls the
    abort flag and reserves memory for the event. -/
def new (cursors : List CompactionEventCursor) : MidgeExec EventMergeIterator := do
  Exec.ask
  let heap ← Exec.ofExcept (openInputs 0 cursors)
  return ⟨heap⟩

/-- The next event, if any. -/
def nextEvent (m : EventMergeIterator) :
    MidgeExec (Option (CompactionEvent × EventMergeIterator)) :=
  match popMin heapLe m.heap with
  | none => return none
  | some (head, others) => do
    Exec.ask
    let heap ← Exec.ofExcept (advance head others)
    Exec.ask
    return some (head.head, ⟨heap⟩)

/-- The event that comes next, if any. -/
def peekEvent (m : EventMergeIterator) : Option CompactionEvent :=
  (popMin heapLe m.heap).map fun (head, _) => head.head

/-- The events left to yield. -/
def events (m : EventMergeIterator) : List CompactionEvent := remaining m.heap

/-- No failure is left in the inputs. -/
def Clean (m : EventMergeIterator) : Prop := CleanInputs m.heap

/-- Every input is in key order. -/
def Sorted (m : EventMergeIterator) : Prop := SortedInputs CompactionEvent.key m.heap

end EventMergeIterator

/-- The order of the heap as a lexicographic rank: it is a linear order. -/
def heapRank (a : EventMergeInput) : Key ×ₗ ℕ ×ₗ ℕᵒᵈ ×ₗ ℕ :=
  toLex (a.head.key, toLex (a.head.kindRank, toLex (OrderDual.toDual a.head.sequence, a.idx)))

theorem heapLe_iff (a b : EventMergeInput) : heapLe a b ↔ heapRank a ≤ heapRank b := by
  simp only [heapLe, versionHeapItemCmp, heapRank, Prod.Lex.toLex_le_toLex, bne_iff_ne, ne_eq,
    OrderDual.toDual_lt_toDual, OrderDual.toDual_inj]
  rcases lt_trichotomy a.head.key b.head.key with h | h | h
  · simp [cmp_eq_lt_iff _ _ |>.2 h, h]
  · rw [cmp_eq_eq_iff _ _ |>.2 h]
    rcases lt_trichotomy a.head.kindRank b.head.kindRank with h' | h' | h'
    · simp [cmp_eq_gt_iff _ _ |>.2 h', h, h']
    · rw [cmp_eq_eq_iff _ _ |>.2 h'.symm]
      rcases lt_trichotomy a.head.sequence b.head.sequence with h'' | h'' | h''
      · simp [cmp_eq_lt_iff _ _ |>.2 h'', h, h', h''.ne, h''.le]
      · simp [cmp_eq_lt_iff, h, h', h'']
      · simp [cmp_eq_gt_iff _ _ |>.2 h'', h, h', h'']
    · simp [cmp_eq_lt_iff _ _ |>.2 h', h, h'.ne', h'.le]
  · simp [cmp_eq_gt_iff _ _ |>.2 h, h.ne', h.le]

theorem heapLe_total (a b : EventMergeInput) : heapLe a b ∨ heapLe b a := by
  simpa only [heapLe_iff] using le_total _ _

theorem heapLe_trans (a b c : EventMergeInput) (hab : heapLe a b) (hbc : heapLe b c) :
    heapLe a c := by
  rw [heapLe_iff] at *
  exact hab.trans hbc

theorem key_le_of_heapLe (a b : EventMergeInput) (h : heapLe a b) : a.head.key ≤ b.head.key := by
  rw [heapLe_iff, heapRank, heapRank, Prod.Lex.toLex_le_toLex] at h
  rcases h with h | h
  · exact h.le
  · exact h.1.le

namespace EventMergeIterator

variable {m m' : EventMergeIterator} {e : CompactionEvent}

/-- Opening the merge keeps the events and the order of the inputs. -/
theorem of_returns_new {cursors : List CompactionEventCursor} (h : Returns (new cursors) m)
    (hs : ∀ c ∈ cursors, EventsSorted (oks c)) : m.events = cursors.flatMap oks ∧ m.Sorted ∧
      (m.Clean → ∀ c ∈ cursors, KWayMerge.Clean c) := by
  obtain ⟨heap, hheap, h⟩ := returns_ofExcept_bind (returns_seq h)
  cases returns_pure.1 h
  exact ⟨openInputs_remaining hheap, openInputs_sorted hs hheap, openInputs_clean hheap⟩

/-- A step takes the head of the first input, if there is any. -/
theorem cases_nextEvent {next : Option (CompactionEvent × EventMergeIterator)}
    (h : Returns m.nextEvent next) : (popMin heapLe m.heap = none ∧ next = none) ∨
      ∃ head others heap, popMin heapLe m.heap = some (head, others) ∧
        advance head others = .ok heap ∧ next = some (head.head, ⟨heap⟩) := by
  rw [nextEvent] at h
  split at h
  next hp => exact .inl ⟨hp, returns_pure.1 h⟩
  next head others hp =>
    obtain ⟨heap, hheap, h⟩ := returns_ofExcept_bind (returns_seq h)
    exact .inr ⟨head, others, heap, hp, hheap, returns_pure.1 (returns_seq h :)⟩

/-- No event comes next only when none is left. -/
theorem of_returns_nextEvent_none (h : Returns m.nextEvent none) : m.events = [] := by
  obtain ⟨hp, -⟩ | ⟨_, _, _, -, -, hnext⟩ := cases_nextEvent h
  · rw [events, popMin_eq_none.1 hp, remaining_nil]
  · cases hnext

/-- A step takes one event off those left, at the least key, and keeps the
    inputs in order. -/
theorem of_returns_nextEvent (hs : m.Sorted) (h : Returns m.nextEvent (some (e, m'))) :
    m.events.Perm (e :: m'.events) ∧ (∀ e' ∈ m.events, e.key ≤ e'.key) ∧ m'.Sorted := by
  obtain ⟨-, hnext⟩ | ⟨head, others, heap, hp, hheap, hnext⟩ := cases_nextEvent h
  all_goals cases hnext
  have hperm := popMin_perm hp
  refine ⟨(remaining_perm hperm).trans (advance_perm hheap).symm, ?_, ?_⟩
  · exact key_le_of_popMin key_le_of_heapLe heapLe_total heapLe_trans hs hp
  · exact advance_sorted (fun i hi => hs i (hperm.mem_iff.2 hi)) hheap

/-- The peeked event is at the least key left. -/
theorem of_peekEvent (hs : m.Sorted) (h : m.peekEvent = some e) :
    e ∈ m.events ∧ ∀ e' ∈ m.events, e.key ≤ e'.key := by
  rw [peekEvent, Option.map_eq_some_iff] at h
  obtain ⟨⟨head, others⟩, hp, rfl⟩ := h
  refine ⟨?_, key_le_of_popMin key_le_of_heapLe heapLe_total heapLe_trans hs hp⟩
  rw [events, (remaining_perm (popMin_perm hp)).mem_iff]
  simp [Input.items]

/-- The peeked event is the one that comes next. -/
theorem peekEvent_of_returns_nextEvent (h : Returns m.nextEvent (some (e, m'))) :
    m.peekEvent = some e := by
  obtain ⟨-, hnext⟩ | ⟨head, others, heap, hp, -, hnext⟩ := cases_nextEvent h
  all_goals cases hnext
  rw [peekEvent, hp, Option.map_some]

theorem clean_of_events_eq_nil (h : m.events = []) : m.Clean := by
  rw [Clean, remaining_eq_nil.1 h]
  exact fun i hi => absurd hi not_mem_nil

theorem clean_of_returns_nextEvent (h : Returns m.nextEvent (some (e, m'))) (hc : m'.Clean) :
    m.Clean := by
  obtain ⟨-, hnext⟩ | ⟨head, others, heap, hp, hheap, hnext⟩ := cases_nextEvent h
  all_goals cases hnext
  exact fun i hi => advance_clean hheap hc i ((popMin_perm hp).mem_iff.1 hi)

theorem peekEvent_eq_none_iff : m.peekEvent = none ↔ m.events = [] := by
  rw [peekEvent, Option.map_eq_none_iff, popMin_eq_none, events, remaining_eq_nil]

end EventMergeIterator

end Midge
