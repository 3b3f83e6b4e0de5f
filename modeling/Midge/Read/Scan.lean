import Midge.Read.PointRead
import Midge.Read.RangeCover

/-!
# Range scans

A scan merges cursors over the sources of a snapshot, in either direction. There
is one for each memtable, one for each file of L0 that stands alone, one for each
run of files of L0 or of a deeper level that do not overlap, and one for each file
whose bounds cannot be relied on. At every round the scan takes the next key from
all the cursors that are at it, merges their states, and asks `RangeCoverSweep`
for the newest range tombstone covering it.

A cursor over a run opens a file only when it gets there, and the scan learns of
its range tombstones only then. The cursor reads one entry ahead, so that it has
opened all the files that may hold the key that it stands at.
-/

namespace Midge

/-- The bounds, the direction and the sequence of a scan. -/
structure ScanRange where
  start : Option Key
  stop : Option Key
  reverse : Bool
  sequence : ℕ
  deriving DecidableEq, Repr

namespace ScanRange

variable (range : ScanRange)

/-- Whether the key is in `[start, stop)`. -/
def contains (key : Key) : Bool := !(range.start.any (key < ·) || range.stop.any (· ≤ key))

/-- Whether a range tombstone may cover keys of the scan. -/
def rangeTombstoneOverlapsQuery (t : RangeTombstone) : Bool :=
  !(range.stop.any (· ≤ t.start) || range.start.any (t.stop ≤ ·))

/-- The list in the direction of the scan. -/
def directed {α : Type} (l : List α) : List α := if range.reverse then l.reverse else l

end ScanRange

/-- An entry of a cursor. -/
abbrev StateEntry := Key × KeyState

/-! ## Memtables and SSTs -/

/-- The keys of the range that the snapshot sees in a memtable, with their states. -/
def Memtable.rangeStateCursor (m : Memtable) (range : ScanRange) : List StateEntry :=
  let keys := ((m.versions.filter fun v =>
    visibleAt range.sequence v.seq && range.contains v.key).map RawSstVersion.key).dedup
  (range.directed (keys.insertionSort (· ≤ ·))).map fun key =>
    (key, m.getRawKeyStateAt key range.sequence)

/-- The range tombstones of a memtable that the snapshot sees. -/
def Memtable.rangeTombstonesAt (m : Memtable) (snapshotSeq : ℕ) : List RangeTombstone :=
  m.tombstones.filter fun t => t.visibleAt snapshotSeq

/-- Merge a version into the best state of its key, if the snapshot sees it. -/
def considerEntry (sequence : ℕ) (best : KeyState) (v : RawSstVersion) : MidgeResult KeyState :=
  if visibleAt sequence v.seq then mergeNewerState best v.sstState else .ok best

/-- The states of the keys of consecutive versions, where `best` is that of `key`
    so far. Keys without a state are left out; a conflict ends the scan. -/
def nextStates (sequence : ℕ) (key : Key) (best : KeyState) :
    List RawSstVersion → List (MidgeResult StateEntry)
  | [] => if best = .absent then [] else [.ok (key, best)]
  | v :: versions =>
    if v.key = key then
      match considerEntry sequence best v with
      | .ok best => nextStates sequence key best versions
      | .error error => [.error error]
    else
      (if best = .absent then [] else [.ok (key, best)]) ++
        match considerEntry sequence .absent v with
        | .ok best => nextStates sequence v.key best versions
        | .error error => [.error error]

/-- The states of the keys of the range in an SST. -/
def SstContents.rawStateScan (d : SstContents) (range : ScanRange) :
    List (MidgeResult StateEntry) :=
  match range.directed (d.versions.filter fun v => range.contains v.key) with
  | [] => []
  | v :: versions => nextStates range.sequence v.key .absent (v :: versions)

/-- The range tombstones of an SST that may cover keys of the scan. -/
def SstContents.scanTombstones (d : SstContents) (range : ScanRange) : List RangeTombstone :=
  d.tombstones.filter fun t =>
    t.visibleAt range.sequence && range.rangeTombstoneOverlapsQuery t

/-! ## Runs of files -/

/-- What a cursor over a run of files comes across: it opens a file, and finds its
    range tombstones, or it reads an entry. -/
inductive LevelEvent
  | opened (tombstones : List RangeTombstone)
  | entry (result : MidgeResult StateEntry)
  deriving Repr

/-- What a cursor comes across in a file. -/
def fileEvents (s : ReadSnapshot) (range : ScanRange) (collectTombstones : Bool)
    (file : FileMeta) : List LevelEvent :=
  match s.sstReader file with
  | .error error => [.entry (.error error)]
  | .ok reader =>
    .opened (if collectTombstones then reader.scanTombstones range else []) ::
      (reader.rawStateScan range).map .entry

/-- A cursor over files in key order. -/
structure SstLevelStateIterator where
  /-- What is still ahead, in the current file and in those not opened yet. -/
  events : List LevelEvent
  /-- An entry that has been read ahead. -/
  pending : Option (MidgeResult StateEntry) := none
  /-- The range tombstones found since the scan last collected them. -/
  openedTombstones : List RangeTombstone := []
  deriving Repr

namespace SstLevelStateIterator

/-- A cursor over the files. -/
def new (s : ReadSnapshot) (files : List FileMeta) (range : ScanRange)
    (collectTombstones : Bool) : SstLevelStateIterator where
  events := (range.directed files).flatMap (fileEvents s range collectTombstones)

/-- The next entry of the files, with what is left and the range tombstones found
    on the way. -/
def nextRaw : List LevelEvent → List RangeTombstone →
    Option (MidgeResult StateEntry) × SstLevelStateIterator
  | [], opened => (none, ⟨[], none, opened⟩)
  | .opened tombstones :: events, opened => nextRaw events (opened ++ tombstones)
  | .entry result :: events, opened => (some result, ⟨events, none, opened⟩)

/-- Merge the entries of `key` that follow, reading one entry ahead. An error
    there may hide a range tombstone covering `key`, so it is reported at once. -/
def mergeKey (key : Key) : Option KeyState → List LevelEvent → List RangeTombstone →
    Option (MidgeResult StateEntry) × SstLevelStateIterator
  | best, [], opened => (some (.ok (key, best.getD .absent)), ⟨[], none, opened⟩)
  | best, .opened tombstones :: events, opened => mergeKey key best events (opened ++ tombstones)
  | _, .entry (.error error) :: events, opened => (some (.error error), ⟨events, none, opened⟩)
  | best, .entry (.ok (candidate, state)) :: events, opened =>
    if candidate = key then
      match mergeBestState best state with
      | .ok best => mergeKey key best events opened
      | .error error => (some (.error error), ⟨events, none, opened⟩)
    else
      (some (.ok (key, best.getD .absent)), ⟨events, some (.ok (candidate, state)), opened⟩)

/-- Merge the entries of the key of the first one. -/
def mergeFrom (rest : SstLevelStateIterator) :
    Option (MidgeResult StateEntry) → Option (MidgeResult StateEntry) × SstLevelStateIterator
  | none => (none, rest)
  | some (.error error) => (some (.error error), rest)
  | some (.ok (key, state)) =>
    match mergeBestState none state with
    | .ok best => mergeKey key best rest.events rest.openedTombstones
    | .error error => (some (.error error), rest)

/-- The next key with its state. -/
def next (level : SstLevelStateIterator) : Option (MidgeResult StateEntry) × SstLevelStateIterator :=
  match level.pending with
  | some entry => mergeFrom { level with pending := none } (some entry)
  | none =>
    let (first, rest) := nextRaw level.events level.openedTombstones
    rest.mergeFrom first

end SstLevelStateIterator

/-! ## Sources of a scan -/

/-- A cursor of a scan. -/
inductive SnapshotStateIterator
  | memory (entries : List StateEntry)
  | sst (entries : List (MidgeResult StateEntry))
  | sstLevel (level : SstLevelStateIterator)
  deriving Repr

namespace SnapshotStateIterator

/-- The next entry. -/
def next : SnapshotStateIterator → Option (MidgeResult StateEntry) × SnapshotStateIterator
  | .memory [] => (none, .memory [])
  | .memory (entry :: entries) => (some (.ok entry), .memory entries)
  | .sst [] => (none, .sst [])
  | .sst (entry :: entries) => (some entry, .sst entries)
  | .sstLevel level => (level.next.1, .sstLevel level.next.2)

/-- The range tombstones of the files that the cursor has opened. -/
def openedTombstones : SnapshotStateIterator → List RangeTombstone
  | .sstLevel level => level.openedTombstones
  | _ => []

/-- The cursor, once its range tombstones have been collected. -/
def drained : SnapshotStateIterator → SnapshotStateIterator
  | .sstLevel level => .sstLevel { level with openedTombstones := [] }
  | iterator => iterator

/-- How many entries there are still to come, at most. -/
def remaining : SnapshotStateIterator → ℕ
  | .memory entries => entries.length
  | .sst entries => entries.length
  | .sstLevel level => level.events.length + level.pending.toList.length

end SnapshotStateIterator

/-- Add range tombstones to those of a scan. -/
def RangeCoverSweep.insertAll (sweep : RangeCoverSweep) (tombstones : List RangeTombstone) :
    RangeCoverSweep :=
  tombstones.foldl (fun sweep t => sweep.insert t.start t.stop t.seq) sweep

/-- A cursor with the entry that it stands at. -/
structure SnapshotStateSource where
  iterator : SnapshotStateIterator
  head : Option (MidgeResult StateEntry)
  needsAdvance : Bool := false
  deriving Repr

namespace SnapshotStateSource

/-- A source at its first entry. -/
def new (iterator : SnapshotStateIterator) : SnapshotStateSource :=
  ⟨iterator.next.2, iterator.next.1, false⟩

/-- Go on, if the entry has been taken. -/
def advanceIfNeeded (source : SnapshotStateSource) : SnapshotStateSource :=
  if source.needsAdvance then new source.iterator else source

/-- Give the range tombstones found to the scan. -/
def drainOpenedTombstones (source : SnapshotStateSource) (into : RangeCoverSweep) :
    SnapshotStateSource × RangeCoverSweep :=
  ({ source with iterator := source.iterator.drained },
    into.insertAll source.iterator.openedTombstones)

/-- Take the entry. -/
def takeHead (source : SnapshotStateSource) : SnapshotStateSource :=
  { source with head := none, needsAdvance := source.head.isSome }

/-- The state of `key`, if the source stands at it. -/
def stateOf? (source : SnapshotStateSource) (key : Key) : Option KeyState :=
  match source.head with
  | some (.ok (candidate, state)) => if candidate = key then some state else none
  | _ => none

end SnapshotStateSource

/-! ## The scan -/

/-- What has become of a scan. -/
inductive SnapshotScanLifecycle
  | active
  | exhausted
  | failed (error : MidgeError)
  deriving DecidableEq, Repr

/-- A lazy merge over the sources of a snapshot. -/
structure SnapshotScan where
  snapshot : ReadSnapshot
  range : ScanRange
  initialized : Bool := false
  lifecycle : SnapshotScanLifecycle := .active
  sources : List SnapshotStateSource := []
  rangeCover : RangeCoverSweep

/-- The start of a scan. -/
def ReadSnapshot.scan (s : ReadSnapshot) (range : ScanRange) : SnapshotScan where
  snapshot := s
  range
  rangeCover := { reverse := range.reverse }

namespace SnapshotScan

/-- Add a source. -/
def push (scan : SnapshotScan) (iterator : SnapshotStateIterator) : SnapshotScan :=
  { scan with sources := scan.sources ++ [.new iterator] }

/-- Add a memtable. -/
def addMemtable (scan : SnapshotScan) (m : Memtable) : SnapshotScan :=
  let tombstones := (m.rangeTombstonesAt scan.range.sequence).filter
    scan.range.rangeTombstoneOverlapsQuery
  { scan.push (.memory (m.rangeStateCursor scan.range)) with
    rangeCover := scan.rangeCover.insertAll tombstones }

/-- Open a file, and collect its range tombstones at once. -/
def appendReaderTombstones (scan : SnapshotScan) (file : FileMeta) :
    MidgeResult (SstContents × SnapshotScan) := do
  let reader ← scan.snapshot.sstReader file
  return (reader, { scan with
    rangeCover := scan.rangeCover.insertAll (reader.scanTombstones scan.range) })

/-- Add a file whose bounds cannot be relied on. -/
def addFallback (scan : SnapshotScan) (file : FileMeta) : MidgeResult SnapshotScan := do
  let (_, scan) ← scan.appendReaderTombstones file
  return scan.push (.sstLevel (.new scan.snapshot [file] scan.range false))

/-- Add the files of a level: a cursor over those in key order, and one for each of
    the others. -/
def addLevelSource (scan : SnapshotScan) (candidates : LevelReadView) :
    MidgeResult SnapshotScan :=
  let scan := if candidates.ordered = [] then scan
    else scan.push (.sstLevel (.new scan.snapshot candidates.ordered scan.range true))
  candidates.fallback.foldlM addFallback scan

/-- Add a run of L0. -/
def addL0Source (scan : SnapshotScan) (files : List FileMeta) : MidgeResult SnapshotScan :=
  match files with
  | [] => .ok scan
  | [file] => do
    let (reader, scan) ← scan.appendReaderTombstones file
    return scan.push (.sst (reader.rawStateScan scan.range))
  | _ => scan.addLevelSource ⟨files, []⟩

/-- Open the SSTs that may hold keys of the range: L0 and the deeper levels. -/
def addSsts (scan : SnapshotScan) : MidgeResult SnapshotScan :=
  if scan.snapshot.memoryMode then .ok scan
  else do
    let candidates := scan.snapshot.sstView.rangeCandidates scan.range.start scan.range.stop
    let scan ← candidates.l0.foldlM addL0Source scan
    candidates.levels.foldlM addLevelSource scan

/-- Open the sources: the memtables, then the SSTs. -/
def initializeSources (scan : SnapshotScan) : MidgeResult SnapshotScan :=
  if scan.initialized then .ok scan
  else
    ((scan.snapshot.memtable :: scan.snapshot.immutableMemtables).foldl addMemtable
      { scan with initialized := true }).addSsts

/-- Bring every source to its next entry, and collect the range tombstones found. -/
def advanceSources : List SnapshotStateSource → RangeCoverSweep →
    List SnapshotStateSource × RangeCoverSweep
  | [], cover => ([], cover)
  | source :: sources, cover =>
    let (source, cover) := source.advanceIfNeeded.drainOpenedTombstones cover
    let (sources, cover) := advanceSources sources cover
    (source :: sources, cover)

/-- An error that some source stands at. -/
def takeSourceError (sources : List SnapshotStateSource) : Option MidgeError :=
  sources.findSome? fun source =>
    match source.head with
    | some (.error error) => some error
    | _ => none

/-- The key of the source, if it comes before the one selected. -/
def selectKey (reverse : Bool) (selected : Option Key) (source : SnapshotStateSource) :
    Option Key :=
  match source.head with
  | some (.ok (candidate, _)) =>
    if selected.all fun current => decide (Ahead reverse candidate current) then some candidate
    else selected
  | _ => selected

/-- The next key of all the sources. -/
def nextKey (reverse : Bool) (sources : List SnapshotStateSource) : Option Key :=
  sources.foldl (selectKey reverse) none

/-- Take the key from all the sources that stand at it, and merge their states. -/
def takeKey (key : Key) : List SnapshotStateSource → Option KeyState →
    MidgeResult (Option KeyState × List SnapshotStateSource)
  | [], best => .ok (best, [])
  | source :: sources, best =>
    match source.stateOf? key with
    | none => do
      let (best, sources) ← takeKey key sources best
      return (best, source :: sources)
    | some state => do
      let best ← mergeBestState best state
      let (best, sources) ← takeKey key sources best
      return (best, source.takeHead :: sources)

/-- How many entries there are still to come, at most. -/
def remaining (scan : SnapshotScan) : ℕ :=
  (scan.sources.map fun source => source.head.toList.length + source.iterator.remaining).sum

/-- The next key that the snapshot sees. Every round takes some entry. -/
def nextVisibleFrom : ℕ → SnapshotScan → MidgeResult (Option (Key × Value) × SnapshotScan)
  | 0, scan => .ok (none, scan)
  | fuel + 1, scan =>
    let (sources, cover) := advanceSources scan.sources scan.rangeCover
    let scan := { scan with sources, rangeCover := cover }
    match takeSourceError scan.sources with
    | some error => .error error
    | none =>
      match nextKey scan.range.reverse scan.sources with
      | none => .ok (none, scan)
      | some key => do
        let (best, sources) ← takeKey key scan.sources none
        let scan := { scan with sources }
        match best with
        | none => nextVisibleFrom fuel scan
        | some best =>
          let (cover, rangeCover) := scan.rangeCover.maxCoverSeq key
          let scan := { scan with rangeCover }
          if cover.any ((stateSequence best).getD 0 ≤ ·) then nextVisibleFrom fuel scan
          else
            match best with
            | .value value _ expiration _ =>
              if isExpiredAt expiration scan.snapshot.readTimeMillis then nextVisibleFrom fuel scan
              else .ok (some (key, value), scan)
            | _ => nextVisibleFrom fuel scan

/-- The next key that the snapshot sees. -/
def nextVisible (scan : SnapshotScan) : MidgeResult (Option (Key × Value) × SnapshotScan) := do
  let scan ← scan.initializeSources
  nextVisibleFrom (scan.remaining + 1) scan

/-- The next row, or the error that ended the scan. -/
def next (scan : SnapshotScan) : Option (MidgeResult (Key × Value)) × SnapshotScan :=
  match scan.lifecycle with
  | .failed error => (some (.error error), scan)
  | .exhausted => (none, scan)
  | .active =>
    match scan.nextVisible with
    | .ok (some row, scan) => (some (.ok row), scan)
    | .ok (none, scan) => (none, { scan with lifecycle := .exhausted })
    | .error error => (some (.error error), { scan with lifecycle := .failed error })

/-- The scan yields the rows one after another, and then ends for good. -/
inductive Drains : SnapshotScan → List (Key × Value) → Prop
  | done {scan scan' : SnapshotScan} (h : scan.next = (none, scan'))
      (hended : scan'.lifecycle = .exhausted) : Drains scan []
  | row {scan scan' : SnapshotScan} {row : Key × Value} {rows : List (Key × Value)}
      (h : scan.next = (some (.ok row), scan')) (hrest : Drains scan' rows) :
      Drains scan (row :: rows)

end SnapshotScan

end Midge
