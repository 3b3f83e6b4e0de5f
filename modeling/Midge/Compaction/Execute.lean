import Midge.Compaction.Strategy

/-!
# Executing a compaction plan

A plan is checked against its purpose, its inputs are opened as streams and
written out: merged, or in the case of a fragmentation cut in place. A repair
of more files than can be open at the same time first merges them into scratch
runs, in as many passes as it takes; a run holds everything that its inputs do
(`mergeRepairInputsToRun`).
-/

namespace Midge

open Exec

/-! ## Repair runs -/

/-- An input of a repair: a file of the level, or a scratch run. -/
inductive RepairRun
  | original (name : String)
  | scratch (contents : SstContents)
  deriving DecidableEq, Repr

/-- Open a run. -/
def RepairRun.open (dir : SstDirectory) : RepairRun → MidgeResult SstContents
  | original name => dir name
  | scratch contents => .ok contents

/-- The streams of the runs. -/
def collectRepairInputs (dir : SstDirectory) (runs : List RepairRun) :
    MidgeExec (List CompactionEventCursor) := do
  ask
  runs.mapM fun run => do
    ask
    let sst ← ofExcept (run.open dir)
    return (sstEvents sst).map .ok

/-- Write the events of a merge, all of them. The fuel is the number of events
    left; `seen` counts those written. -/
def writeRepairEvents (factory : SstFactory) (byteLimit : ℕ) :
    ℕ → EventMergeIterator → SstContents → ℕ → MidgeExec (SstContents × ℕ)
  | 0, _, writer, seen => return (writer, seen)
  | fuel + 1, merged, writer, seen => do
    match ← merged.nextEvent with
    | none => return (writer, seen)
    | some (event, merged) =>
      askWhen (seen % 1024 = 0)
      let writer ← (match event with
        | .version v => addSortedWithMeta writer v.key v.value v.seq
            (if v.isTombstone then .delete else .put) v.expiration
        | .rangeStart t => addRangeTombstone writer t.start t.stop t.seq
        | .rangeEnd _ => pure writer
        | .boundary _ => pure writer)
      if (factory.encodedSizeUpperBound writer).all (byteLimit < ·) then
        fail (.resourceLimit "repair scratch run exceeds admitted local capacity")
      else writeRepairEvents factory byteLimit fuel merged writer (satAdd seen 1)

/-- Merge the runs of a batch into one, dropping nothing. -/
def mergeRepairInputsToRun (factory : SstFactory) (dir : SstDirectory) (batch : List RepairRun)
    (byteLimit : ℕ) : MidgeExec SstContents := do
  let inputs ← collectRepairInputs dir batch
  ask
  let merged ← EventMergeIterator.new inputs
  ask
  let (writer, seen) ←
    writeRepairEvents factory byteLimit merged.events.length merged .empty 0
  if seen = 0 then
    fail (.corruption "overlap repair input has no versions or tombstones")
  else
    ask
    return writer

/-- The scratch space of a repair. -/
structure RepairScratch where
  admittedBytes : ℕ
  usedBytes : ℕ := 0
  deriving DecidableEq, Repr

namespace RepairScratch

/-- Reserve scratch space. -/
def new (admittedBytes : ℕ) : MidgeExec RepairScratch :=
  if admittedBytes = 0 then
    fail (.resourceLimit "overlap repair has no admitted local scratch capacity")
  else do
    ask
    return { admittedBytes }

/-- Free the scratch runs of a batch. -/
def retireConsumed (factory : SstFactory) (scratch : RepairScratch) (batch : List RepairRun) :
    RepairScratch :=
  { scratch with usedBytes := batch.foldl (fun used run =>
      match run with
      | .original _ => used
      | .scratch contents => used - factory.fileSize contents) scratch.usedBytes }

/-- Merge a batch, unless it is a single run. -/
def mergeBatch (factory : SstFactory) (dir : SstDirectory) (scratch : RepairScratch)
    (batch : List RepairRun) : MidgeExec (List RepairRun × RepairScratch) := do
  ask
  match batch with
  | [run] => return ([run], scratch)
  | batch =>
    let contents ← mergeRepairInputsToRun factory dir batch
      (scratch.admittedBytes - scratch.usedBytes)
    let scratch :=
      { scratch with usedBytes := satAdd scratch.usedBytes (factory.fileSize contents) }
    if scratch.admittedBytes < scratch.usedBytes then
      fail (.resourceLimit "overlap repair scratch exceeds admitted local capacity")
    else
      ask
      return ([.scratch contents], scratch.retireConsumed factory batch)

/-- Merge the batches of a pass. -/
def mergePass (factory : SstFactory) (dir : SstDirectory) :
    RepairScratch → List (List RepairRun) → MidgeExec (List RepairRun × RepairScratch)
  | scratch, [] => return ([], scratch)
  | scratch, batch :: batches => do
    let (runs, scratch) ← scratch.mergeBatch factory dir batch
    let (rest, scratch) ← mergePass factory dir scratch batches
    return (runs ++ rest, scratch)

/-- Batches of `n`. The fuel is the number of elements. -/
def chunks {α : Type} (n : ℕ) : ℕ → List α → List (List α)
  | 0, _ => []
  | _ + 1, [] => []
  | fuel + 1, l => l.take n :: chunks n fuel (l.drop n)

/-- Merge passes until the runs can be open at the same time. A pass leaves
    fewer runs, so that the number of runs is enough fuel. -/
def mergePasses (factory : SstFactory) (dir : SstDirectory) (fanIn : ℕ) :
    ℕ → RepairScratch → List RepairRun → MidgeExec (List RepairRun)
  | 0, _, runs => return runs
  | fuel + 1, scratch, runs =>
    if fanIn < runs.length then do
      let (runs, scratch) ← mergePass factory dir scratch (chunks fanIn runs.length runs)
      mergePasses factory dir fanIn fuel scratch runs
    else return runs

/-- Merge the files of a repair into few enough runs. -/
def mergeRuns (factory : SstFactory) (dir : SstDirectory) (scratch : RepairScratch)
    (originals : List String) (fanIn : ℕ) : MidgeExec (List RepairRun) :=
  if fanIn < 2 then
    fail (.resourceLimit "overlap repair requires at least two admitted merge streams")
  else mergePasses factory dir fanIn originals.length scratch (originals.map .original)

end RepairScratch

/-! ## Execution -/

/-- What a compaction may use. -/
structure CompactionResources where
  targetSstSize : ℕ
  sourceFanIn : ℕ
  outputSizeLimit : Option ℕ
  /-- The scratch capacity of the local disk. -/
  localCapacity : ℕ

/-- The contract of each purpose. -/
def validateCompactionPurpose (plan : CompactionPlan) : MidgeResult Unit :=
  let sameLevel := decide (plan.sourceLevel = plan.targetLevel) &&
    decide (0 < plan.sourceLevel) && plan.targetFiles.isEmpty &&
    !plan.pointTombstoneGcEligible && !plan.rangeTombstoneGcEligible
  let valid := match plan.purpose with
    | .merge => decide (plan.sourceLevel ≠ plan.targetLevel)
    | .repair => sameLevel
    | .fragment _ => sameLevel && decide (plan.sourceFiles.length = 1)
  if valid then .ok ()
  else .error (.corruption "compaction purpose differs from its level, input, or tombstone retention contract")

/-- Keep a partition below half of the memory pool. -/
def boundedPartitionTargetSize (configuredTarget compactionPool : ℕ) : ℕ :=
  min configuredTarget (max (compactionPool / 2) 1)

/-- How the outputs of a plan are written. -/
def CompactionPlan.outputConfig (plan : CompactionPlan) (resources : CompactionResources) :
    PartitionOutputConfig where
  cfId := plan.cfId
  targetLevel := plan.targetLevel
  generation := plan.outputSeq
  targetSstSize :=
    boundedPartitionTargetSize resources.targetSstSize plan.compactionMemoryLimit
  tombstoneGc :=
    ⟨plan.snapshotHorizon, plan.pointTombstoneGcEligible, plan.rangeTombstoneGcEligible⟩
  outputSizeLimit := resources.outputSizeLimit
  grandparentOverlap := plan.grandparentOverlap

/-- The streams of a same-level repair, merged into scratch runs if there are
    too many of them. -/
def repairInputs (factory : SstFactory) (dir : SstDirectory) (plan : CompactionPlan)
    (resources : CompactionResources) : MidgeExec (List CompactionEventCursor) := do
  let runs ← (if resources.sourceFanIn < plan.sourceFiles.length then do
      ask
      let scratch ← RepairScratch.new
        (resources.outputSizeLimit.elim resources.localCapacity (· / 2))
      scratch.mergeRuns factory dir plan.sourceFiles resources.sourceFanIn
    else pure (plan.sourceFiles.map .original))
  collectRepairInputs dir runs

/-- Execute a plan, returning the output files. -/
def executeCompactionAtTarget (factory : SstFactory) (dir : SstDirectory) (plan : CompactionPlan)
    (resources : CompactionResources) : MidgeExec (List FinishedPartition) :=
  if plan.inputFiles ≠ combinedInputFiles plan.sourceFiles plan.targetFiles then
    fail (.corruption "compaction replacement set differs from source and target inputs")
  else do
    ofExcept (validateCompactionPurpose plan)
    if plan.inputFiles = [] then return []
    else
      match plan.purpose with
      | .fragment splitKey =>
        let inputs ← collectCompactionStreamInputs dir plan.sourceFiles [] plan.sourceLevel true
        writeFragmentedCompactionOutputs factory inputs
          ⟨plan.cfId, plan.targetLevel, plan.outputSeq, 0⟩ splitKey
          (boundedPartitionTargetSize resources.targetSstSize plan.compactionMemoryLimit)
          resources.outputSizeLimit
      | .repair =>
        let inputs ← repairInputs factory dir plan resources
        writePartitionedCompactionOutputs factory inputs (plan.outputConfig resources)
      | .merge =>
        let inputs ← collectCompactionStreamInputs dir plan.sourceFiles plan.targetFiles
          plan.sourceLevel false
        writePartitionedCompactionOutputs factory inputs (plan.outputConfig resources)

end Midge
