import Midge.Compaction.Merge
import Midge.Compaction.Overlap

/-!
# Partitioned compaction outputs

The compaction proper: the merged events are taken one key at a time; of the
versions of a key only the newest survives, unless tombstone garbage collection
drops it, and it is written to the current output *partition*. A partition is
closed and a new one opened at a key (a *roll*) when it reaches its size target,
would exceed its hard limit or overlaps too much of the next level.

Range tombstones are not written when they start but when a partition closes,
clipped to the keys of the partition. The tracker keeps those that are open at
the current key (`ActiveTombstones`) and those that the current partition has
met (`PartitionTombstones`); when a partition is rolled, the ones still open are
carried into the next.

Calls that may fail for reasons outside of the model (the abort flag, memory
reservations, the writer's own I/O) are calls of the environment, `Exec.ask`.
The sizes that the writer reports are those of an arbitrary `SstFactory`.
-/

namespace Midge

open Exec

/-! ## Writers -/

/-- What the factory's writers report about the contents written so far. -/
structure SstFactory where
  /-- The size used for soft rollover. -/
  estimatedSizeBytes : SstContents → ℕ
  /-- A bound on the final file size, if the writer can tell. -/
  encodedSizeUpperBound : SstContents → Option ℕ
  /-- The bound after one more entry. -/
  encodedSizeUpperBoundAfterSortedEntry : SstContents → Key → Option Value → Option ℕ
  /-- The growth of the bound by one more range tombstone. -/
  additionalRangeTombstoneSizeUpperBound : SstContents → Key → Key → Option ℕ
  /-- The length of the finished file. -/
  fileSize : SstContents → ℕ

/-- Append an entry, whose key and sequence are in order. -/
def addSortedWithMeta (writer : SstContents) (key : Key) (value : Option Value) (seq : ℕ)
    (opType : EntryType) (expiration : Option ℕ) : MidgeExec SstContents := do
  ask
  return { writer with
    versions := writer.versions ++ [⟨key, seq, decide (opType = .delete), value, expiration⟩] }

/-- Append a range tombstone. -/
def addRangeTombstone (writer : SstContents) (start stop : Key) (seq : ℕ) :
    MidgeExec SstContents := do
  ask
  return { writer with tombstones := writer.tombstones ++ [⟨start, stop, seq⟩] }

/-- The identity of an output partition. -/
structure PartitionIdentity where
  cfId : ℕ
  targetLevel : ℕ
  generation : ℕ
  ordinal : ℕ
  deriving DecidableEq, Repr

/-- The file name of a compaction partition. -/
def compactionFileName (i : PartitionIdentity) : String :=
  zeroPadded 6 i.cfId ++ "_" ++ zeroPadded 2 i.targetLevel ++ "_" ++
    zeroPadded 20 i.generation ++ "_" ++ zeroPadded 10 i.ordinal ++ ".sst"

/-- A finished output file. -/
structure FinishedPartition where
  name : String
  contents : SstContents
  deriving DecidableEq, Repr

/-- The tombstone clipped to `[lower, upper)`, unless nothing is left. -/
def RangeTombstone.clip (t : RangeTombstone) (lower upper : Option Key) : Option RangeTombstone :=
  let start := lower.elim t.start (max t.start)
  let stop := upper.elim t.stop (min t.stop)
  if stop ≤ start then none else some ⟨start, stop, t.seq⟩

/-- Write the tombstones of a partition, clipped to it. The abort flag is
    polled every 1024 of them. -/
def addPartitionRangeTombstones (lower upper : Option Key) :
    SstContents → ℕ → ℕ → List RangeTombstone → MidgeExec (SstContents × ℕ)
  | writer, _, added, [] => return (writer, added)
  | writer, index, added, t :: tombstones => do
    askWhen (index % 1024 = 0)
    match t.clip lower upper with
    | none => addPartitionRangeTombstones lower upper writer (index + 1) added tombstones
    | some c =>
      let writer ← addRangeTombstone writer c.start c.stop c.seq
      addPartitionRangeTombstones lower upper writer (index + 1) (satAdd added 1) tombstones

/-- Fail unless the output is known to fit. -/
def ensureOutputFitsLocalStaging (factory : SstFactory) (writer : SstContents) :
    Option ℕ → MidgeResult Unit
  | none => .ok ()
  | some limit =>
    match factory.encodedSizeUpperBound writer with
    | none => .error (.resourceLimit "compaction writer cannot bound its local output size")
    | some encodedBound =>
      if limit < encodedBound then
        .error (.resourceLimit s!"compaction partition requires {encodedBound} encoded bytes, exceeding local staging limit {limit}")
      else .ok ()

/-- Finish a partition: write its tombstones and, unless it is empty, its
    file. -/
def finishPartition (factory : SstFactory) (writer : SstContents) (pointCount : ℕ)
    (retained : List RangeTombstone) (lower upper : Option Key) (identity : PartitionIdentity)
    (outputSizeLimit : Option ℕ) : MidgeExec (Option FinishedPartition) := do
  ask
  let (writer, tombstoneCount) ← addPartitionRangeTombstones lower upper writer 0 0 retained
  if pointCount = 0 ∧ tombstoneCount = 0 then return none
  ofExcept (ensureOutputFitsLocalStaging factory writer outputSizeLimit)
  ask
  if outputSizeLimit.any (· < factory.fileSize writer) then
    fail (.resourceLimit "encoded compaction partition exceeds its local staging limit")
  else return some ⟨compactionFileName identity, writer⟩

/-! ## Tracking range tombstones -/

/-- Partition tombstones are ordered by start, end and sequence. -/
def partitionTombstoneKey (t : RangeTombstone) : Key ×ₗ Key ×ₗ ℕ :=
  toLex (t.start, toLex (t.stop, t.seq))

/-- Active tombstones are ordered by sequence, start and end. -/
def activeTombstoneKey (t : RangeTombstone) : ℕ ×ₗ Key ×ₗ Key :=
  toLex (t.seq, toLex (t.start, t.stop))

/-- Insert into a sorted list, as into a `BTreeMap` without the key. -/
def insertByKey {K : Type*} [LinearOrder K] (key : RangeTombstone → K) (t : RangeTombstone)
    (l : List RangeTombstone) : List RangeTombstone :=
  l.orderedInsert (fun a b => key a ≤ key b) t

/-- A bound on the encoded size of a tombstone. -/
def encodedTombstoneUpperBound (t : RangeTombstone) : ℕ :=
  satAdd (satAdd (satAdd (satMul 4 2) 8) t.start.length) t.stop.length

/-- What bounds the growth of the current partition by a pending tombstone. -/
structure PendingTombstoneBound where
  factory : SstFactory
  writer : SstContents
  lowerBound : Option Key

/-- The size that pending tombstones would add to the partition. -/
def pendingTombstoneSize (b : PendingTombstoneBound) : ℕ → List RangeTombstone → MidgeResult ℕ
  | bound, [] => .ok bound
  | bound, t :: tombstones =>
    let start := b.lowerBound.elim t.start (max t.start)
    if t.stop ≤ start then pendingTombstoneSize b bound tombstones
    else
      match b.factory.additionalRangeTombstoneSizeUpperBound b.writer start t.stop with
      | none =>
        .error (.resourceLimit "compaction writer cannot bound pending range tombstones")
      | some growth => pendingTombstoneSize b (satAdd bound growth) tombstones

/-- The range tombstones of the partition being written, with the bounds on
    their size kept up to date. -/
structure PartitionTombstones where
  entries : List RangeTombstone := []
  encodedBytes : ℕ := 0
  pendingBytes : ℕ := 0

/-- Add a tombstone to the partition. -/
def PartitionTombstones.insert (p : PartitionTombstones) (t : RangeTombstone)
    (pending : Option PendingTombstoneBound) : MidgeExec PartitionTombstones := do
  if t ∈ p.entries then return p
  let pendingGrowth ← ofExcept (pending.elim (.ok 0) (pendingTombstoneSize · 0 [t]))
  ask
  return {
    entries := insertByKey partitionTombstoneKey t p.entries
    encodedBytes := satAdd p.encodedBytes (encodedTombstoneUpperBound t)
    pendingBytes := satAdd p.pendingBytes pendingGrowth }

/-- The range tombstones open at the current key, split by whether garbage
    collection may drop the points they cover. -/
structure ActiveTombstones where
  live : List RangeTombstone := []
  obsolete : List RangeTombstone := []

namespace ActiveTombstones

/-- A range ends. -/
def remove (a : ActiveTombstones) (t : RangeTombstone) : ActiveTombstones where
  live := a.live.filter (· ≠ t)
  obsolete := a.obsolete.filter (· ≠ t)

/-- A range starts. -/
def insert (a : ActiveTombstones) (t : RangeTombstone) (obsolete : Bool) :
    MidgeExec ActiveTombstones := do
  if t ∈ a.live ∨ t ∈ a.obsolete then return a
  ask
  if obsolete then
    return { a with obsolete := insertByKey activeTombstoneKey t a.obsolete }
  else
    return { a with live := insertByKey activeTombstoneKey t a.live }

/-- The obsolete range with the highest sequence. -/
def highestObsoleteCover (a : ActiveTombstones) : Option RangeTombstone := a.obsolete.getLast?

end ActiveTombstones

/-- Whether no snapshot can still need a tombstone of this sequence. -/
def tombstoneIsObsolete (sequence : ℕ) (snapshotHorizon : Option ℕ) : Bool :=
  snapshotHorizon.all (sequence ≤ ·)

/-- Whether garbage collection drops a range tombstone. -/
def rangeTombstoneIsObsolete (t : RangeTombstone) (policy : TombstoneGcPolicy) : Bool :=
  policy.rangeEligible && tombstoneIsObsolete t.seq policy.snapshotHorizon

/-- The range tombstones across key groups and output partitions. -/
structure RangeTombstoneTracker where
  active : ActiveTombstones := {}
  partition : PartitionTombstones := {}

namespace RangeTombstoneTracker

/-- Retire the ranges that end at the key group. -/
def advanceToKey (t : RangeTombstoneTracker) (events : List CompactionEvent) :
    RangeTombstoneTracker :=
  { t with active := (events.filterMap CompactionEvent.rangeEnd?).foldl .remove t.active }

/-- Whether the partition has met a tombstone. -/
def hasPartitionTombstones (t : RangeTombstoneTracker) : Bool := !t.partition.entries.isEmpty

/-- Observe the ranges that start at the key group. -/
def observeStarts (policy : TombstoneGcPolicy) (pending : Option PendingTombstoneBound) :
    RangeTombstoneTracker → List RangeTombstone → MidgeExec RangeTombstoneTracker
  | tracker, [] => return tracker
  | tracker, t :: tombstones => do
    if t.stop ≤ t.start then
      fail (.corruption "compaction observed an empty or inverted range tombstone")
    else
      let obsolete := rangeTombstoneIsObsolete t policy
      let partition ←
        (if obsolete then pure tracker.partition else tracker.partition.insert t pending)
      let active ← tracker.active.insert t obsolete
      observeStarts policy pending ⟨active, partition⟩ tombstones

/-- Start a new partition with the live ranges that are still open. -/
def carryLiveTombstones (tracker : RangeTombstoneTracker)
    (pending : Option PendingTombstoneBound) : MidgeExec RangeTombstoneTracker := do
  let partition ← tracker.active.live.foldlM (fun p t => p.insert t pending) {}
  return { tracker with partition := partition }

end RangeTombstoneTracker

/-! ## One key group -/

/-- A key in an error message, its bytes read as characters. -/
def debugKey (key : Key) : String :=
  "\"" ++ String.ofList (key.map fun b => Char.ofNat b.val) ++ "\""

/-- Versions of one key at the same sequence must be identical. -/
def checkSameSequence : List CompactionVersion → MidgeResult Unit
  | newer :: older :: versions =>
    if newer.seq = older.seq ∧ newer.content ≠ older.content then
      .error (.corruption s!"conflicting compaction versions for key {debugKey older.key} at sequence {older.seq}")
    else checkSameSequence (older :: versions)
  | _ => .ok ()

/-- The newest version of a key group. -/
def selectNewestVersion (events : List CompactionEvent) :
    MidgeResult (Option CompactionVersion) := do
  let versions := (events.filterMap CompactionEvent.version?).insertionSort
    fun left right => right.seq ≤ left.seq
  checkSameSequence versions
  return versions.head?

/-- The tombstones that start at the key group. -/
def rangeStarts (events : List CompactionEvent) : List RangeTombstone :=
  events.filterMap CompactionEvent.rangeStart?

/-- Whether the newest version of a key group survives garbage collection. -/
def survivesTombstoneGc (version : CompactionVersion) (obsoleteActiveCover : Option RangeTombstone)
    (starts : List RangeTombstone) (gc : TombstoneGcPolicy) : Bool :=
  let coveredByActive := obsoleteActiveCover.any fun active =>
    decide (active.Covers version.key) && decide (version.seq ≤ active.seq)
  let coveredByStart := starts.any fun t =>
    rangeTombstoneIsObsolete t gc && decide (t.Covers version.key) && decide (version.seq ≤ t.seq)
  !(coveredByActive || coveredByStart ||
    (gc.pointEligible && version.isTombstone &&
      tombstoneIsObsolete version.seq gc.snapshotHorizon))

/-- Retire the ranges ending at the key group, and select its output: the
    newest version if it survives, and the ranges starting there. -/
def selectPartitionKeyOutput (events : List CompactionEvent) (tombstones : RangeTombstoneTracker)
    (gc : TombstoneGcPolicy) :
    MidgeResult (RangeTombstoneTracker × Option CompactionVersion × List RangeTombstone) := do
  let tombstones := tombstones.advanceToKey events
  let selected ← selectNewestVersion events
  let starts := rangeStarts events
  let selected := selected.filter fun version =>
    survivesTombstoneGc version tombstones.active.highestObsoleteCover starts gc
  return (tombstones, selected, starts)

/-! ## Rolling partitions -/

/-- Whether the partition has reached its size target at this key group. -/
def softRollDue (hasSelectedVersion : Bool) (partitionPointCount partitionSize
    partitionTombstoneBytes : ℕ) (hasPartitionTombstones : Bool) (targetSstSize : ℕ) : Bool :=
  let target := max targetSstSize 1
  let rangeOnlyRoll := decide (partitionPointCount = 0) && hasPartitionTombstones &&
    decide (target ≤ partitionTombstoneBytes)
  (hasSelectedVersion && decide (0 < partitionPointCount) && decide (target ≤ partitionSize)) ||
    rangeOnlyRoll

/-- The output partition being written. -/
structure PartitionRoller where
  factory : SstFactory
  identity : PartitionIdentity
  targetSstSize : ℕ
  outputSizeLimit : Option ℕ
  writer : SstContents
  lowerBound : Option Key
  pointCount : ℕ

/-- A bound on the partition's size after its next version and the pending
    tombstones. -/
def prospectivePartitionSize (factory : SstFactory) (writer : SstContents)
    (nextVersion : Option CompactionVersion) (pendingTombstoneBytes : ℕ) : MidgeResult ℕ :=
  let bound := match nextVersion with
    | some v => factory.encodedSizeUpperBoundAfterSortedEntry writer v.key v.value
    | none => factory.encodedSizeUpperBound writer
  match bound with
  | none => .error (.resourceLimit "compaction writer cannot bound its next local output")
  | some bound => .ok (satAdd bound pendingTombstoneBytes)

namespace PartitionRoller

/-- The first partition. -/
def new (factory : SstFactory) (identity : PartitionIdentity) (targetSstSize : ℕ)
    (outputSizeLimit : Option ℕ) : MidgeExec PartitionRoller := do
  ask
  return ⟨factory, identity, targetSstSize, outputSizeLimit, .empty, none, 0⟩

/-- What bounds a pending tombstone, while a hard limit is enforced. -/
def pendingTombstoneBound (r : PartitionRoller) : Option PendingTombstoneBound :=
  r.outputSizeLimit.map fun _ => ⟨r.factory, r.writer, r.lowerBound⟩

/-- The bound with the tombstones starting at the key group. -/
def boundWithStarts (r : PartitionRoller) (tombstones : RangeTombstoneTracker)
    (gc : TombstoneGcPolicy) : ℕ → List RangeTombstone → MidgeResult ℕ
  | bound, [] => .ok bound
  | bound, t :: starts =>
    if rangeTombstoneIsObsolete t gc ∨ t ∈ tombstones.partition.entries then
      boundWithStarts r tombstones gc bound starts
    else do
      let growth ← pendingTombstoneSize ⟨r.factory, r.writer, r.lowerBound⟩ 0 [t]
      boundWithStarts r tombstones gc (satAdd bound growth) starts

/-- Whether the partition must be closed at the key group. -/
def shouldRollWithSoftTarget (r : PartitionRoller) (selected : Option CompactionVersion)
    (starts : List RangeTombstone) (tombstones : RangeTombstoneTracker) (gc : TombstoneGcPolicy)
    (allowSoftRoll : Bool) : MidgeResult Bool := do
  let partitionTombstoneBytes := tombstones.partition.encodedBytes
  let partitionSize := satAdd (r.factory.estimatedSizeBytes r.writer) partitionTombstoneBytes
  let softRoll := allowSoftRoll && softRollDue selected.isSome r.pointCount partitionSize
    partitionTombstoneBytes tombstones.hasPartitionTombstones r.targetSstSize
  match r.outputSizeLimit with
  | none => return softRoll
  | some limit =>
    let bound ← prospectivePartitionSize r.factory r.writer selected tombstones.partition.pendingBytes
    let bound ← boundWithStarts r tombstones gc bound starts
    let hardRoll := (decide (0 < r.pointCount) || tombstones.hasPartitionTombstones) &&
      decide (limit < bound)
    return softRoll || hardRoll

/-- Whether the partition must be closed at the key group, soft target
    included. -/
def shouldRoll (r : PartitionRoller) (selected : Option CompactionVersion)
    (starts : List RangeTombstone) (tombstones : RangeTombstoneTracker) (gc : TombstoneGcPolicy) :
    MidgeResult Bool :=
  r.shouldRollWithSoftTarget selected starts tombstones gc true

/-- Write a version to the partition. -/
def writeSelected (r : PartitionRoller) (version : CompactionVersion) :
    MidgeExec PartitionRoller := do
  let writer ← addSortedWithMeta r.writer version.key version.value version.seq
    (if version.isTombstone then .delete else .put) version.expiration
  return { r with writer := writer, pointCount := satAdd r.pointCount 1 }

/-- Fail if the partition already exceeds the hard limit. -/
def ensureCurrentFits (r : PartitionRoller) (tombstones : RangeTombstoneTracker) :
    MidgeResult Unit :=
  match r.outputSizeLimit with
  | none => .ok ()
  | some limit =>
    if 0 < r.pointCount ∨ tombstones.hasPartitionTombstones then do
      let bound ← prospectivePartitionSize r.factory r.writer none tombstones.partition.pendingBytes
      if limit < bound then
        .error (.resourceLimit s!"indivisible compaction key group requires {bound} encoded bytes, exceeding local staging limit {limit}")
      else .ok ()
    else .ok ()

/-- Finish the partition at its upper bound. -/
def finishCurrent (r : PartitionRoller) (tombstones : RangeTombstoneTracker)
    (upper : Option Key) : MidgeExec (Option FinishedPartition) :=
  finishPartition r.factory r.writer r.pointCount tombstones.partition.entries r.lowerBound upper
    r.identity r.outputSizeLimit

/-- Finish the partition at a boundary key. -/
def finishForRoll (r : PartitionRoller) (boundaryKey : Key) (tombstones : RangeTombstoneTracker) :
    MidgeExec (Option FinishedPartition) := do
  ask
  r.finishCurrent tombstones (some boundaryKey)

/-- Begin the partition after a boundary key. -/
def startNextPartition (r : PartitionRoller) (boundaryKey : Key)
    (tombstones : RangeTombstoneTracker) (partitionEmitted : Bool) :
    MidgeExec (PartitionRoller × RangeTombstoneTracker) := do
  if partitionEmitted ∧ 2 ^ 32 ≤ r.identity.ordinal + 1 then
    fail (.resourceLimit "compaction partition ordinal space exhausted")
  else
    ask
    let identity := if partitionEmitted then
      { r.identity with ordinal := r.identity.ordinal + 1 } else r.identity
    let r := { r with
      identity := identity, lowerBound := some boundaryKey, writer := .empty, pointCount := 0 }
    let tombstones ← tombstones.carryLiveTombstones r.pendingTombstoneBound
    return (r, tombstones)

end PartitionRoller

/-! ## The main loop -/

/-- The configuration of a compaction's outputs. -/
structure PartitionOutputConfig where
  cfId : ℕ
  targetLevel : ℕ
  generation : ℕ
  targetSstSize : ℕ
  tombstoneGc : TombstoneGcPolicy
  outputSizeLimit : Option ℕ
  grandparentOverlap : GrandparentOverlap

/-- The partition being written, the range tombstones and the partitions
    already finished. -/
structure PartitionWork where
  roller : PartitionRoller
  tombstones : RangeTombstoneTracker
  outputs : List FinishedPartition

/-- The state of the main loop. -/
structure PartitionState where
  work : PartitionWork
  overlap : OverlapTracker

/-- Record a finished partition, handing it to the sink. -/
def recordFinishedPartition (finished : Option FinishedPartition)
    (outputs : List FinishedPartition) : MidgeExec (List FinishedPartition) :=
  match finished with
  | none => return outputs
  | some f => do
    ask
    return outputs ++ [f]

/-- The events at `key` that come next, and the merge after them. The fuel is
    the number of events left. -/
def collectSameKeyEvents (key : Key) :
    ℕ → EventMergeIterator → MidgeExec (List CompactionEvent × EventMergeIterator)
  | 0, merged => return ([], merged)
  | fuel + 1, merged =>
    if merged.peekEvent.any (·.key == key) then do
      match ← merged.nextEvent with
      | none => fail (.internal "peeked compaction event exists")
      | some (event, merged) =>
        ask
        let (events, merged) ← collectSameKeyEvents key fuel merged
        return (event :: events, merged)
    else return ([], merged)

/-- Roll the partition at the key: finish it, and start the next one. -/
def rollPartition (w : PartitionWork) (key : Key) : MidgeExec PartitionWork := do
  let finished ← w.roller.finishForRoll key w.tombstones
  let outputs ← recordFinishedPartition finished w.outputs
  let (roller, tombstones) ← w.roller.startNextPartition key w.tombstones finished.isSome
  return ⟨roller, tombstones, outputs⟩

/-- Whether the current partition has anything to write. -/
def PartitionWork.hasOutput (w : PartitionWork) : Bool :=
  decide (0 < w.roller.pointCount) || w.tombstones.hasPartitionTombstones

/-- Process one key group. -/
def processKeyGroup (gc : TombstoneGcPolicy) (s : PartitionState) (key : Key)
    (events : List CompactionEvent) : MidgeExec PartitionState := do
  let (tombstones, selected, starts) ←
    ofExcept (selectPartitionKeyOutput events s.work.tombstones gc)
  let work := { s.work with tombstones := tombstones }
  let grandparentRoll := work.hasOutput && s.overlap.shouldRoll key
  let roll ← ofExcept (work.roller.shouldRoll selected starts work.tombstones gc)
  let rolled := roll || grandparentRoll
  let work ← (if rolled then rollPartition work key else pure work)
  let overlap := if rolled then s.overlap.reset else s.overlap
  let tombstones ← work.tombstones.observeStarts gc work.roller.pendingTombstoneBound starts
  let roller ← selected.elim (pure work.roller) work.roller.writeSelected
  ofExcept (roller.ensureCurrentFits tombstones)
  let work := { work with roller := roller, tombstones := tombstones }
  let overlap ← (if work.hasOutput then overlap.observe key else pure overlap)
  return ⟨work, overlap⟩

/-- Process the key groups of the merge one after the other. The step gets the
    key of a group, its events, and whether it is the last. The fuel is the
    number of events left. -/
def forKeyGroups {σ : Type} (step : σ → Key → List CompactionEvent → Bool → MidgeExec σ) :
    ℕ → EventMergeIterator → σ → MidgeExec σ
  | 0, _, s => return s
  | fuel + 1, merged, s => do
    match ← merged.nextEvent with
    | none => return s
    | some (first, merged) =>
      ask
      let (events, merged) ← collectSameKeyEvents first.key merged.events.length merged
      let s ← step s first.key (first :: events) merged.peekEvent.isNone
      forKeyGroups step fuel merged s

/-- The last partition, and all the outputs. -/
def finishPartitionedOutputs (w : PartitionWork) : MidgeExec (List FinishedPartition) := do
  ask
  let finished ← w.roller.finishCurrent w.tombstones none
  let outputs ← recordFinishedPartition finished w.outputs
  ask
  return outputs

/-- Merge, deduplicate and write target-sized compaction partitions. -/
def writePartitionedCompactionOutputs (factory : SstFactory) (inputs : List CompactionEventCursor)
    (config : PartitionOutputConfig) : MidgeExec (List FinishedPartition) := do
  ask
  let cursors := inputs ++ config.grandparentOverlap.boundaryCursor.toList
  let roller ← PartitionRoller.new factory ⟨config.cfId, config.targetLevel, config.generation, 0⟩
    config.targetSstSize config.outputSizeLimit
  let merged ← EventMergeIterator.new cursors
  if merged.peekEvent.isNone then
    fail (.internal "compaction produced no output; inputs were not replaced")
  else
    let s ← forKeyGroups (fun s key events _ => processKeyGroup config.tombstoneGc s key events)
      merged.events.length merged ⟨⟨roller, {}, []⟩, { policy := config.grandparentOverlap }⟩
    finishPartitionedOutputs s.work

/-! ## Fragmentation

A file is rewritten in place without dropping anything, cut at a key inside
its bounds and, beyond that, by size. -/

/-- Fragmentation collects nothing. -/
def retainAll : TombstoneGcPolicy where
  snapshotHorizon := none
  pointEligible := false
  rangeEligible := false

/-- Write all the versions of a key group. -/
def writeAllVersions (r : PartitionRoller) (events : List CompactionEvent) :
    MidgeExec PartitionRoller :=
  (events.filterMap CompactionEvent.version?).foldlM (fun r v => r.writeSelected v) r

/-- Write one key group to the fragments. A range that ends at the last key of
    the file keeps the partition from being closed there for its size. -/
def writeFragmentKeyEvents (w : PartitionWork) (key : Key) (events : List CompactionEvent)
    (forcedRoll finalGroup : Bool) : MidgeExec PartitionWork := do
  let w := { w with tombstones := w.tombstones.advanceToKey events }
  let newest ← ofExcept (selectNewestVersion events)
  let starts := rangeStarts events
  let keepEndingRange := finalGroup &&
    w.tombstones.partition.entries.any fun range => decide (range.stop = key)
  let allowSoftRoll := !forcedRoll && !keepEndingRange
  let canRoll := !forcedRoll || w.roller.lowerBound.any (· < key)
  let roll ← (if canRoll then
      ofExcept (w.roller.shouldRollWithSoftTarget newest starts w.tombstones retainAll
        allowSoftRoll)
    else pure false)
  let w ← (if roll then rollPartition w key else pure w)
  let tombstones ← w.tombstones.observeStarts retainAll w.roller.pendingTombstoneBound starts
  let roller ← writeAllVersions w.roller events
  ofExcept (roller.ensureCurrentFits tombstones)
  return { w with roller := roller, tombstones := tombstones }

/-- The state of the fragmentation loop. -/
structure FragmentState where
  work : PartitionWork
  cutPending : Bool := true
  hasKeyAfterCut : Bool := false

/-- Process one key group, after the cut if it is due. At an exact endpoint the
    ranges ending there are retired before the cut; across a gap they stay open
    until their own end. -/
def processFragmentKeyGroup (splitKey : Key) (s : FragmentState) (key : Key)
    (events : List CompactionEvent) (finalGroup : Bool) : MidgeExec FragmentState := do
  let forcedRoll := s.cutPending && decide (splitKey ≤ key)
  let w := if forcedRoll && decide (key = splitKey) then
    { s.work with tombstones := s.work.tombstones.advanceToKey events } else s.work
  let w ← (if forcedRoll then rollPartition w splitKey else pure w)
  let w ← writeFragmentKeyEvents w key events forcedRoll finalGroup
  return ⟨w, s.cutPending && !forcedRoll, s.hasKeyAfterCut || decide (splitKey < key)⟩

/-- Rewrite one source without reducing its history, cut at `splitKey`. -/
def writeFragmentedCompactionOutputs (factory : SstFactory) (inputs : List CompactionEventCursor)
    (identity : PartitionIdentity) (splitKey : Key) (targetSstSize : ℕ)
    (outputSizeLimit : Option ℕ) : MidgeExec (List FinishedPartition) := do
  ask
  let merged ← EventMergeIterator.new inputs
  if merged.peekEvent.all (splitKey ≤ ·.key) then
    fail (.corruption "fragment boundary is not inside its source bounds")
  else
    let roller ← PartitionRoller.new factory identity targetSstSize outputSizeLimit
    let s ← forKeyGroups (processFragmentKeyGroup splitKey) merged.events.length merged
      { work := ⟨roller, {}, []⟩ }
    if s.hasKeyAfterCut then finishPartitionedOutputs s.work
    else fail (.corruption "fragment boundary is not inside its source bounds")

end Midge
