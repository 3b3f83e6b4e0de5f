import Midge.Compaction.Layout
import Midge.Compaction.Partition

/-!
# Compaction planning

The leveled compaction picker. A plan names the files to merge and the level to
merge them into:

* `planZeroLevel` takes a batch of L0 files to L1. The batch is closed under
  older overlapping files (`selectLevelOrderedL0Batch`), so that L1 never gets a
  version newer than one left in L0.
* `planInnerLevelFiltered` takes files of a level to the next one, or cuts a
  file in place when its overlap with the next level is too large to merge.
* `pickRepairCompaction` rewrites files of a level that overlap each other.

All but the repairs take with them the target files that overlap
(`completeOverlapSpan`), and may collect tombstones when no other file overlaps
(`tombstoneGcEligibility`).
-/

namespace Midge

/-! ## Plans -/

/-- What a compaction is for. -/
inductive CompactionPurpose
  | merge
  | repair
  /-- Rewrite one source in place, cut at a key, without selecting versions or
      collecting tombstones. -/
  | fragment (splitKey : Key)
  deriving DecidableEq, Repr

def defaultTargetSstSize : ℕ := 256 * 1024 * 1024

def defaultCompactionMemoryLimit : ℕ := 64 * 1024 * 1024

/-- Which SSTs to read, and which level to promote into. -/
structure CompactionPlan where
  purpose : CompactionPurpose
  /-- The files that the outputs replace. -/
  inputFiles : List String
  sourceFiles : List String
  /-- The overlap span in the target level, in key order. -/
  targetFiles : List String
  sourceLevel : ℕ
  targetLevel : ℕ
  cfId : ℕ
  outputSeq : ℕ := 0
  targetSstSize : ℕ := defaultTargetSstSize
  compactionMemoryLimit : ℕ := defaultCompactionMemoryLimit
  snapshotHorizon : Option ℕ := none
  pointTombstoneGcEligible : Bool := false
  rangeTombstoneGcEligible : Bool := false
  grandparentOverlap : GrandparentOverlap := {}
  deriving DecidableEq, Repr

/-- The configuration of leveled compaction. -/
structure LeveledCompactionConfig where
  /-- The bytes of level + 2 that one output may intersect; zero disables. -/
  maxGrandparentOverlapBytes : ℕ := 320 * 1024 * 1024
  l0CompactionThreshold : ℕ := 4 * 1024 * 1024
  l0FileCountThreshold : ℕ := 4
  maxCompactionInputFiles : ℕ := 64
  levelMultiplier : ℕ := 10
  l1TargetSize : ℕ := 40 * 1024 * 1024
  maxLevels : ℕ := 7
  deriving DecidableEq, Repr

/-- The compaction planner. -/
structure Compactor where
  config : LeveledCompactionConfig := {}
  /-- The preferred maximum of the input bytes of a plan. -/
  workTargetBytes : Option ℕ := none
  deriving DecidableEq, Repr

/-! ## Names and ages -/

/-- Remove consecutive repetitions. -/
def dedup : List String → List String
  | a :: b :: l => if a = b then dedup (b :: l) else a :: dedup (b :: l)
  | l => l

/-- Sort, and remove repetitions. -/
def dedupeSort (names : List String) : List String := dedup (names.insertionSort (· ≤ ·))

/-- The files a plan replaces. -/
def combinedInputFiles (sourceFiles targetFiles : List String) : List String :=
  dedupeSort (sourceFiles ++ targetFiles)

/-- What follows the last `c`. -/
def afterLast (c : Char) (l : List Char) : List Char := (l.reverse.takeWhile (· ≠ c)).reverse

/-- A file name without its extension. -/
def fileStem (name : String) : List Char :=
  let name := afterLast '/' name.toList
  match (name.reverse.dropWhile (· ≠ '.')).reverse.dropLast with
  | [] => name
  | stem => stem

/-- The number that decimal digits denote, if it fits in a `u64`. -/
def parseU64 (digits : List Char) : Option ℕ :=
  let digits := match digits with
    | '+' :: digits => digits
    | digits => digits
  if digits = [] ∨ ¬ digits.all Char.isDigit then none
  else
    let n := digits.foldl (fun n c => 10 * n + (c.toNat - '0'.toNat)) 0
    if n ≤ usizeMax then some n else none

/-- The age of an SST: its sequence number, as recorded or as its name encodes
    it, and its name. -/
def fileAgeKey (file : FileMeta) : ℕ ×ₗ String :=
  let encodedSequence := parseU64 (afterLast '_' (fileStem file.name))
  toLex (max file.sstSeq (encodedSequence.getD 0), file.name)

/-! ## Key ranges -/

/-- The smallest and largest keys of the files. -/
def smallestAndLargest (files : List FileMeta) : MidgeResult (Key × Key) := do
  let smallest ← files.mapM fun file =>
    file.smallestKey.elim
      (.error (.corruption s!"SST '{file.name}' is missing its smallest-key metadata")) .ok
  let smallest ← smallest.min?.elim
    (.error (.internal "compaction range has no input files")) .ok
  let largest ← files.mapM fun file =>
    file.largestKey.elim
      (.error (.corruption s!"SST '{file.name}' is missing its largest-key metadata")) .ok
  let largest ← largest.max?.elim
    (.error (.internal "compaction range has no input files")) .ok
  return (smallest, largest)

/-- Whether the key ranges of two files intersect. A file without complete
    bounds may hold any key. -/
def l0KeyRangesOverlap (left right : FileMeta) : Bool :=
  if !left.keyBoundsComplete || !right.keyBoundsComplete then true
  else
    match left.smallestKey, left.largestKey, right.smallestKey, right.largestKey with
    | some leftFirst, some leftLast, some rightFirst, some rightLast =>
      decide (leftFirst ≤ rightLast) && decide (rightFirst ≤ leftLast)
    | _, _, _, _ => true

/-! ## The L0 batch -/

/-- The last of the greatest elements. -/
def maxBy {α : Type*} (le : α → α → Bool) : List α → Option α
  | [] => none
  | a :: l => some (l.foldl (fun best b => if le best b then b else best) a)

/-- The candidates, by index, whose older overlapping files are all out of the
    remaining ones, that are in age order. -/
def admissible (remaining : List (FileMeta × ℕ)) : List ((FileMeta × ℕ) × ℕ) :=
  remaining.zipIdx.filter fun (candidate, index) =>
    (remaining.take index).all fun older => !l0KeyRangesOverlap older.1 candidate.1

/-- Whether `right` is picked rather than `left`: the hotter, and of equally
    hot files the older. -/
def heatLe (left right : (FileMeta × ℕ) × ℕ) : Bool :=
  match cmp left.1.2 right.1.2 with
  | .lt => true
  | .gt => false
  | .eq => decide (fileAgeKey right.1.1 ≤ fileAgeKey left.1.1)

/-- Pick up to `n` more files for the batch. -/
def pickL0Files : ℕ → List (FileMeta × ℕ) → List FileMeta
  | 0, _ => []
  | n + 1, remaining =>
    match maxBy heatLe (admissible remaining) with
    | none => []
    | some (candidate, index) => candidate.1 :: pickL0Files n (remaining.eraseIdx index)

/-- Choose the L0 files for one compaction: the oldest first, then the hottest
    among those whose older overlapping files are all chosen. -/
def selectLevelOrderedL0Batch (candidates : List (FileMeta × ℕ)) (batchSize : ℕ) :
    List FileMeta :=
  match batchSize, candidates.insertionSort fun left right =>
      fileAgeKey left.1 ≤ fileAgeKey right.1 with
  | n + 1, oldest :: remaining => oldest.1 :: pickL0Files n remaining
  | _, _ => []

/-! ## The overlap span -/

/-- The files of a level in the order of their smallest key, largest key and
    name. -/
def targetOrder (file : FileMeta) : WithBot Key ×ₗ WithBot Key ×ₗ String :=
  toLex (file.smallestKey, toLex (file.largestKey, file.name))

/-- Whether a file meets the span between two keys. -/
def meetsSpan (minKey maxKey : Key) (file : FileMeta) : Bool :=
  file.smallestKey.any (· ≤ maxKey) && file.largestKey.any (minKey ≤ ·)

/-- A span of consecutive files, with the hull of their keys. -/
structure OverlapSpan where
  first : ℕ
  last : ℕ
  closureMin : Key
  closureMax : Key

/-- Extend the hull by a file. -/
def OverlapSpan.include (span : OverlapSpan) (file : FileMeta) : OverlapSpan :=
  { span with
    closureMin := file.smallestKey.elim span.closureMin (min span.closureMin)
    closureMax := file.largestKey.elim span.closureMax (max span.closureMax) }

/-- Extend the span by the files that touch its hull. Each round adds a file,
    so that the number of files is enough fuel. -/
def extendSpan (ordered : List FileMeta) : ℕ → OverlapSpan → OverlapSpan
  | 0, span => span
  | fuel + 1, span =>
    let previous := if span.first = 0 then none else ordered[span.first - 1]?
    match previous.filter fun file => file.largestKey.any (span.closureMin ≤ ·) with
    | some file => extendSpan ordered fuel ({ span with first := span.first - 1 }.include file)
    | none =>
      match ordered[span.last + 1]?.filter fun file =>
          file.smallestKey.any (· ≤ span.closureMax) with
      | some file => extendSpan ordered fuel ({ span with last := span.last + 1 }.include file)
      | none => span

/-- The files between the first and the last one of a span. -/
def OverlapSpan.files (ordered : List FileMeta) (span : OverlapSpan) : List FileMeta :=
  (ordered.drop span.first).take (span.last + 1 - span.first)

/-- The target files of a compaction of keys between `minKey` and `maxKey`: all
    those from the first to the last that meets them, and those that touch the
    hull of these. -/
def overlapSpan (targetFiles : List FileMeta) (minKey maxKey : Key) : List FileMeta :=
  let ordered := targetFiles.insertionSort fun left right => targetOrder left ≤ targetOrder right
  match ordered.findIdx? (meetsSpan minKey maxKey),
      (ordered.reverse.findIdx? (meetsSpan minKey maxKey)).map (ordered.length - 1 - ·) with
  | some first, some last =>
    let span : OverlapSpan := ⟨first, last, minKey, maxKey⟩
    let span := (span.files ordered).foldl OverlapSpan.include span
    (extendSpan ordered ordered.length span).files ordered
  | _, _ => []

namespace Compactor

variable (c : Compactor)

/-- Bound the source streams that are open at the same time. -/
def validateSourceFanIn (sourceFiles : List String) (cfId sourceLevel targetLevel : ℕ) :
    MidgeResult Unit :=
  let limit := max c.config.maxCompactionInputFiles 1
  let activeStreams := if sourceLevel = 0 then sourceFiles.length
    else if sourceFiles = [] then 0 else 1
  if limit < activeStreams then
    .error (.resourceLimit s!"compaction L{sourceLevel}->L{targetLevel} for column family {cfId} requires {activeStreams} simultaneous source streams, exceeding the configured safety limit {limit}")
  else .ok ()

/-- The names of the sources, and of the target files to merge them with. -/
def completeOverlapSpan (sourceFiles targetFiles : List FileMeta)
    (cfId sourceLevel targetLevel : ℕ) : MidgeResult (List String × List String) := do
  let (minKey, maxKey) ← smallestAndLargest sourceFiles
  let sourceNames := dedup (sourceFiles.map FileMeta.name)
  c.validateSourceFanIn sourceNames cfId sourceLevel targetLevel
  return (sourceNames, (overlapSpan targetFiles minKey maxKey).map FileMeta.name)

/-- Whether point and range tombstones may be collected: no unselected file
    meets the keys of the selected ones. -/
def tombstoneGcEligibility (levels : List (List FileMeta)) (inputFiles : List String) :
    MidgeResult (Bool × Bool) := do
  let selectedFiles := levels.flatten.filter (·.name ∈ inputFiles)
  let (minKey, maxKey) ← smallestAndLargest selectedFiles
  let unselectedPointOverlap := levels.flatten.any fun file =>
    decide (file.name ∉ inputFiles) &&
      match file.smallestKey, file.largestKey with
      | some smallest, some largest => decide (smallest ≤ maxKey) && decide (minKey ≤ largest)
      | _, _ => true
  let pointTombstoneGcEligible := !unselectedPointOverlap
  let totalFiles := (levels.map List.length).sum
  let completeBounds := levels.flatten.all (·.keyBoundsComplete)
  let rangeTombstoneGcEligible := pointTombstoneGcEligible &&
    (decide (inputFiles.dedup.length = totalFiles) || completeBounds)
  return (pointTombstoneGcEligible, rangeTombstoneGcEligible)

/-! ## The planner -/

/-- Check the metadata that planning relies on. -/
def validateFileMetadata (cfId : ℕ) : List FileMeta → MidgeResult Unit
  | [] => .ok ()
  | file :: files =>
    if c.config.maxLevels ≤ file.level then
      .error (.corruption s!"SST '{file.name}' for column family {cfId} has unsupported level {file.level}")
    else
      match file.smallestKey, file.largestKey with
      | some smallest, some largest =>
        if largest < smallest then
          .error (.corruption s!"SST '{file.name}' for column family {cfId} has an inverted key range")
        else validateFileMetadata cfId files
      | _, _ =>
        .error (.corruption s!"SST '{file.name}' for column family {cfId} is missing key-range metadata")

/-- The files of a family by level, if there are any. -/
def validatedLevels (files : List FileMeta) (cfId : ℕ) :
    MidgeResult (Option (List (List FileMeta))) := do
  let cfFiles := files.filter (·.cfId = cfId)
  if cfFiles = [] then return none
  c.validateFileMetadata cfId cfFiles
  return some ((List.range c.config.maxLevels).map fun level => cfFiles.filter (·.level = level))

/-- The size above which a level is compacted. -/
def levelTargetSize (level : ℕ) : ℕ :=
  match level with
  | 0 => c.config.l0CompactionThreshold
  | 1 => c.config.l1TargetSize
  | level + 2 =>
    satMul c.config.l1TargetSize (min (c.config.levelMultiplier ^ (level + 1)) usizeMax)

/-- The size of a level. -/
def levelSize (files : List FileMeta) : ℕ := (files.map FileMeta.sizeBytes).sum

/-- A plan for L0 → L1. -/
def planZeroLevel (levels : List (List FileMeta)) (cfId : ℕ) :
    MidgeResult (Option CompactionPlan) := do
  let l0 := levels.getD 0 []
  if l0 = [] then return none
  let candidates := l0.map fun file => (file, file.readCount)
  let batchSize := min l0.length (max c.config.l0FileCountThreshold 1)
  let l0Batch := selectLevelOrderedL0Batch candidates batchSize
  let (sourceFiles, targetFiles) ← c.completeOverlapSpan l0Batch (levels.getD 1 []) cfId 0 1
  let inputFiles := combinedInputFiles sourceFiles targetFiles
  let (point, range) ← tombstoneGcEligibility levels inputFiles
  return some {
    purpose := .merge, inputFiles, sourceFiles, targetFiles
    sourceLevel := 0, targetLevel := 1, cfId
    pointTombstoneGcEligible := point, rangeTombstoneGcEligible := range }

/-- Whether the inputs exceed the preferred work of a plan. -/
def exceedsWorkTarget (sourceFiles targetFiles : List FileMeta) (selectedTargets : List String) :
    Bool :=
  match c.workTargetBytes with
  | none => false
  | some limit =>
    let inputBytes := levelSize (sourceFiles ++ targetFiles.filter (·.name ∈ selectedTargets))
    decide (usizeMax < inputBytes) || decide (limit < inputBytes)

/-- The key at which to cut a source: the median of the starts of the target
    files inside of it. -/
def fragmentationSplitKey (source : FileMeta) (sourceLevel targetLevel : List FileMeta) :
    Option Key :=
  if ((sourceLevel ++ targetLevel).any fun file => !file.keyBoundsComplete) ||
      !(repairComponents sourceLevel).isEmpty || !(repairComponents targetLevel).isEmpty then none
  else
    match source.smallestKey, source.largestKey with
    | some smallest, some largest =>
      let cuts := ((targetLevel.filterMap FileMeta.smallestKey).filter fun key =>
        smallest < key ∧ key < largest).insertionSort (· ≤ ·)
      let cuts := cuts.destutter (· ≠ ·)
      cuts[cuts.length / 2]?
    | _, _ => none

/-- Cut a file in place. -/
def sourceFragmentationPlan (source : FileMeta) (cfId : ℕ) (splitKey : Key) : CompactionPlan where
  purpose := .fragment splitKey
  inputFiles := [source.name]
  sourceFiles := [source.name]
  targetFiles := []
  sourceLevel := source.level
  targetLevel := source.level
  cfId := cfId

/-- Sources are taken in the order of their smallest key and name. -/
def sourceOrder (file : FileMeta) : WithBot Key ×ₗ String := toLex (file.smallestKey, file.name)

/-- The contiguous available sources of a level, up to the batch size. -/
def innerSources (files : List FileMeta) (eligible : FileMeta → Bool) : List FileMeta :=
  let ordered := files.insertionSort fun left right => sourceOrder left ≤ sourceOrder right
  ((ordered.dropWhile fun file => !eligible file).takeWhile eligible).take
    (max c.config.l0FileCountThreshold 1)

/-- The plan that merges sources into the next level. -/
def innerMergePlan (levels : List (List FileMeta)) (cfId level : ℕ)
    (sourceNames targetFiles : List String) : MidgeResult (Option CompactionPlan) := do
  let inputFiles := combinedInputFiles sourceNames targetFiles
  let (point, range) ← tombstoneGcEligibility levels inputFiles
  return some {
    purpose := .merge, inputFiles, sourceFiles := sourceNames, targetFiles
    sourceLevel := level, targetLevel := level + 1, cfId
    pointTombstoneGcEligible := point, rangeTombstoneGcEligible := range }

/-- A plan for a level below L0. A plan that exceeds the preferred work is
    reduced to one source; if that does not help, and overlap is not limited
    otherwise, the source is cut in place. -/
def planInnerLevelFiltered (levels : List (List FileMeta)) (cfId level : ℕ)
    (eligible : FileMeta → Bool) : MidgeResult (Option CompactionPlan) := do
  let sourceFiles := c.innerSources (levels.getD level []) eligible
  let targetLevel := levels.getD (level + 1) []
  if sourceFiles = [] then return none
  let (sourceNames, targetFiles) ←
    c.completeOverlapSpan sourceFiles targetLevel cfId level (level + 1)
  if c.exceedsWorkTarget sourceFiles targetLevel targetFiles then
    let sourceFiles := sourceFiles.take 1
    let (sourceNames, targetFiles) ←
      c.completeOverlapSpan sourceFiles targetLevel cfId level (level + 1)
    let cut := if c.exceedsWorkTarget sourceFiles targetLevel targetFiles ∧
        c.config.maxGrandparentOverlapBytes = 0 then
      sourceFiles.head?.bind fun source =>
        (fragmentationSplitKey source (levels.getD level []) targetLevel).map (source, ·)
      else none
    match cut with
    | some (source, splitKey) => return some (sourceFragmentationPlan source cfId splitKey)
    | none => innerMergePlan levels cfId level sourceNames targetFiles
  else innerMergePlan levels cfId level sourceNames targetFiles

/-- The names of the files at the given indices. -/
def namesAt (files : List FileMeta) (indices : List ℕ) : List String :=
  indices.filterMap fun index => files[index]?.map FileMeta.name

/-- The repair of the first defective component of a level. -/
def repairPlan (files : List FileMeta) (cfId level : ℕ) : Option CompactionPlan :=
  (repairComponents files).head?.map fun component => {
    purpose := .repair, inputFiles := namesAt files component
    sourceFiles := namesAt files component, targetFiles := []
    sourceLevel := level, targetLevel := level, cfId }

/-- Repair the first defective component at the deepest level. -/
def pickRepairCompaction (files : List FileMeta) (cfId : ℕ) :
    MidgeResult (Option CompactionPlan) := do
  match ← c.validatedLevels files cfId with
  | none => return none
  | some levels =>
    return (List.range c.config.maxLevels).reverse.findSome? fun level =>
      if level = 0 then none else repairPlan (levels.getD level []) cfId level

/-- L0 work, when it is due or forced. -/
def pickL0Compaction (files : List FileMeta) (cfId : ℕ) (force : Bool) :
    MidgeResult (Option CompactionPlan) := do
  match ← c.validatedLevels files cfId with
  | none => return none
  | some levels =>
    let l0 := levels.getD 0 []
    let eligible := force || decide (c.config.l0CompactionThreshold < levelSize l0) ||
      decide (c.config.l0FileCountThreshold ≤ l0.length)
    if !eligible then return none
    c.planZeroLevel levels cfId

end Compactor

end Midge
