import Midge.Cloud.Generation
import Midge.Lib.Update

/-!
# Names of SST files

Flushes and compactions of a family take the numbers of their files from one cursor. In hybrid
mode an output may reach the object store before the manifest has it. A process that crashes
then leaves an object behind, and no other output may ever take its name.

So a process reserves a block of numbers before it uses one: it journals the end of the block,
and mirrors its metadata to the cloud. Only when the mirror has been selected there are the
names of the block admitted. A process that starts takes over the metadata that is selected.

The state of a process has what its event loop reads and writes (`NameState`), and the world has
the processes and the metadata that have been selected (`NameWorld`).
-/

namespace Midge

open Function Update

/-! ## Counters -/

/-- The counters of the families, as the manifest has them. -/
abbrev SstCounters := ℕ → Option ℕ

namespace SstCounters

variable (counters : SstCounters)

/-- The next number of a family. -/
def next (cfId : ℕ) : ℕ := (counters cfId).getD 1

/-- What the edit that bumps a counter does when it is replayed. -/
def bump (cfId nextSeq : ℕ) : SstCounters :=
  update counters cfId (some (max ((counters cfId).getD 0) nextSeq))

/-- A snapshot keeps the counters that have been written, and those of its caller. -/
def merge (written : SstCounters) : SstCounters := fun cfId =>
  match counters cfId, written cfId with
  | some a, some b => some (max a b)
  | some a, none => some a
  | none, b => b

end SstCounters

/-! ## The state of a process -/

/-- The metadata of a process at one time, as far as it concerns the counters. The ordinals
    count the captures of the process. -/
structure NameCut where
  epoch : ℕ
  ordinal : ℕ
  counters : SstCounters

/-- What a metadata mirror goes on with. -/
inductive MirrorContinuation
  | sstReservation (cfId nextSeq : ℕ)
  /-- Recovery waits for the block that begins with `first`. -/
  | recovery (cfId first nextSeq : ℕ)
  | other
  deriving DecidableEq, Repr

/-- A metadata mirror that is running, and the ordinal of its capture. -/
structure MirrorJob where
  ordinal : ℕ
  continuation : MirrorContinuation
  deriving DecidableEq, Repr

/-- What concerns the name in a compaction plan. No number has been assigned if it is zero. -/
structure NamedPlan where
  cfId : ℕ
  outputSeq : ℕ
  deriving DecidableEq, Repr

structure FlushIdentity where
  flushId : ℕ
  writerEpoch : ℕ
  cfId : ℕ
  sequence : ℕ
  deriving DecidableEq, Repr

/-- An immutable memtable that is to be flushed. -/
structure ImmutableFlush where
  cfId : ℕ
  writerEpoch : ℕ
  sequence : ℕ
  sstName : Option String := none
  sstSeq : Option ℕ := none
  deriving DecidableEq, Repr

inductive NamePhase
  | recovering
  | running
  | crashed
  deriving DecidableEq, Repr

/-- A process, as far as it concerns the names. -/
structure NameState where
  epoch : ℕ
  hybrid : Bool := true
  phase : NamePhase := .recovering
  /-- The counters of the manifest in memory. -/
  manifest : SstCounters
  /-- The counters of the manifest in the local files. -/
  disk : SstCounters
  reloadRequired : Bool := false
  /-- The numbers in the names of the live and retired files. -/
  generations : ℕ → List ℕ := fun _ => []
  cursor : ℕ → Option ℕ := fun _ => none
  reservedThrough : ℕ → Option ℕ := fun _ => none
  prefetchRetryAt : Option ℕ := none
  compactionOutputGeneration : ℕ := 0
  nextCut : ℕ := 1
  /-- The captures that may be selected. -/
  cuts : List NameCut := []
  mirror : Option MirrorJob := none
  pendingCompactions : List NamedPlan := []
  pendingFlush : Option ℕ := none
  flushes : ℕ → Option ImmutableFlush := fun _ => none
  /-- The blocks that recovery has left. -/
  ranges : ℕ → ℕ × ℕ := fun _ => (0, 0)
  /-- A record of the numbers that have been handed out, with their families. -/
  handed : List (ℕ × ℕ) := []
  /-- A record of the numbers that have been given to an output, which may then reach the object
      store. -/
  admitted : List (ℕ × ℕ) := []

/-- Updates of a process. -/
abbrev NameM := Update MidgeError NameState

/-! ## The cursor -/

def namesExhausted : MidgeError := .resourceLimit "SST filename allocation exhausted"

/-- Skip the numbers of the files that are there. -/
def seedSstName (next : ℕ) (generations : List ℕ) : Except MidgeError ℕ :=
  generations.foldlM (fun next generation =>
    (checkedAdd generation 1).elim (.error namesExhausted) fun after => .ok (max next after)) next

/-- The first number that has not been handed out. -/
def nextSstName (cfId : ℕ) : NameM ℕ := do
  let s ← get
  match s.cursor cfId with
  | some next => return next
  | none => do
    let next ← check <|
      if s.hybrid then .ok (s.manifest.next cfId)
      else seedSstName (s.manifest.next cfId) (s.generations cfId)
    modify fun s => { s with cursor := update s.cursor cfId (some next) }
    return next

/-- Hand out a number. -/
def consumeSstName (cfId name : ℕ) : NameM Unit := do
  let next ← nextSstName cfId
  check (ensure (next = name) (.fenced "SST name cursor changed before admission"))
  let following ← check ((checkedAdd name 1).elim (.error namesExhausted) .ok)
  modify fun s => { s with
    cursor := update s.cursor cfId (some following)
    manifest := if s.hybrid then s.manifest else s.manifest.bump cfId following
    compactionOutputGeneration := max s.compactionOutputGeneration name
    handed := s.handed ++ [(cfId, name)] }

def allocateCompactionSstName (cfId : ℕ) : NameM ℕ := do
  let name ← nextSstName cfId
  consumeSstName cfId name
  return name

/-! ## Reservations -/

/-- The number of names that one reservation covers. -/
def sstNameReservationBlock : ℕ := 16

def sstNamePrefetchRemaining : ℕ := sstNameReservationBlock / 2

/-- How an append to the journal ends. One that fails may leave its edit behind. -/
structure JournalAppend where
  fault : Option MidgeError := none
  kept : Bool := false
  deriving DecidableEq, Repr

/-- What a reservation meets. -/
structure ReservationCalls where
  expiredAtEntry : Bool := false
  reload : Option MidgeError := none
  expiredAfterReload : Bool := false
  append : JournalAppend := {}
  mirror : Option MidgeError := none
  expiredAfterMirror : Bool := false
  deriving DecidableEq, Repr

def checkReservationDeadline (expired : Bool) : Except MidgeError Unit :=
  ensure (expired = false) (.timeout "SST filename reservation exceeded the caller deadline")

/-- Load the manifest again if memory may be behind the files. -/
def retryMetadataReload (fault : Option MidgeError) : NameM Unit := do
  let s ← get
  if s.reloadRequired then do
    check <| (faultCheck fault).mapError fun error => .fenced
      ("manifest and intent log are still behind disk; refusing to publish: " ++ error.display)
    modify fun s => { s with manifest := s.disk, reloadRequired := false }
  else return ()

/-- Journal the end of a block. -/
def appendBump (append : JournalAppend) (cfId nextSeq : ℕ) : NameM Unit :=
  match append.fault with
  | none => modify fun s => { s with disk := s.disk.bump cfId nextSeq }
  | some error => do
    modify fun s => { s with disk := if append.kept then s.disk.bump cfId nextSeq else s.disk }
    throw error

/-- Capture the metadata of the files. -/
def captureControlCut : NameM Unit :=
  modify fun s => { s with
    cuts := s.cuts ++ [⟨s.epoch, s.nextCut, s.disk⟩]
    nextCut := s.nextCut + 1 }

/-- Start to mirror the metadata. The answer is whether there is anything to wait for. -/
def startMetadataMirror (fault : Option MidgeError) (continuation : MirrorContinuation) :
    NameM Bool := do
  let s ← get
  if s.hybrid then do
    check (ensure (s.mirror = none) (.busy "metadata mirror already owns publication"))
    check (faultCheck fault)
    captureControlCut
    modify fun s' => { s' with mirror := some ⟨s.nextCut, continuation⟩ }
    return true
  else return false

/-- Reserve a block of names that has the number in it, unless it is reserved. The answer is
    whether there is anything to wait for. -/
def beginSstNameReservation (calls : ReservationCalls) (cfId sstSeq : ℕ) : NameM Bool := do
  check (checkReservationDeadline calls.expiredAtEntry)
  let s ← get
  if sstSeq < (s.reservedThrough cfId).getD 0 then return false
  else do
    retryMetadataReload calls.reload
    check (checkReservationDeadline calls.expiredAfterReload)
    let s ← get
    let stop ← check ((checkedAdd sstSeq sstNameReservationBlock).elim
      (.error namesExhausted) .ok)
    let nextSeq := max stop (s.manifest.next cfId)
    appendBump calls.append cfId nextSeq
    modify fun s => { s with manifest := update s.manifest cfId (some nextSeq) }
    let pending ← startMetadataMirror calls.mirror (.sstReservation cfId nextSeq)
    if pending then return true
    else do
      check (checkReservationDeadline calls.expiredAfterMirror)
      modify fun s => { s with
        reservedThrough := update s.reservedThrough cfId (some nextSeq) }
      return false

def reserveSstName (calls : ReservationCalls) (cfId sstSeq : ℕ) : NameM Unit := do
  let pending ← beginSstNameReservation calls cfId sstSeq
  check (ensure (pending = false) (.busy "SST filename reservation publication pending"))

/-- A reservation is only needed when an output may reach the object store. -/
def reserveSstNameDurably (calls : ReservationCalls) (cfId sstSeq : ℕ) : NameM Unit := do
  let s ← get
  if s.hybrid then reserveSstName calls cfId sstSeq else return ()

/-! ## Flushes -/

/-- The name of the file of a flush. -/
def sstFileName (cfId level sequence : ℕ) : String :=
  zeroPadded 6 cfId ++ "_" ++ zeroPadded 2 level ++ "_" ++ zeroPadded 20 sequence ++ ".sst"

def reserveFlushSstSeq (calls : ReservationCalls) (cfId : ℕ) : NameM ℕ := do
  let sstSeq ← nextSstName cfId
  reserveSstNameDurably calls cfId sstSeq
  consumeSstName cfId sstSeq
  return sstSeq

/-- Give a flush a name of its own. -/
def assignFlushSstIdentity (calls : ReservationCalls) (gateActive : Bool)
    (identity : FlushIdentity) (flush : ImmutableFlush) : NameM (String × ℕ) := do
  check (ensure (gateActive = false)
    (.busy "SST name reservation waits for the publication owner"))
  let sstSeq ← reserveFlushSstSeq calls identity.cfId
  let sstName := sstFileName identity.cfId 0 sstSeq
  modify fun s => { s with
    flushes := update s.flushes identity.flushId
      (some { flush with sstName := some sstName, sstSeq := some sstSeq })
    admitted := s.admitted ++ [(identity.cfId, sstSeq)] }
  return (sstName, sstSeq)

/-- The name of a flush. A flush that has one keeps it. -/
def ensureFlushSstIdentity (calls : ReservationCalls) (gateActive : Bool)
    (identity : FlushIdentity) : NameM (String × ℕ) := do
  let s ← get
  match s.flushes identity.flushId with
  | none => throw (.fenced ("flush " ++ toString identity.flushId ++
      " lost immutable ownership before name reservation"))
  | some flush =>
    if flush.cfId ≠ identity.cfId ∨ flush.writerEpoch ≠ identity.writerEpoch ∨
        flush.sequence ≠ identity.sequence then
      throw (.fenced "flush identity changed before name reservation")
    else
      match flush.sstName, flush.sstSeq with
      | some name, some seq =>
        if name = sstFileName identity.cfId 0 seq then return (name, seq)
        else throw (.internal "flush has an inconsistent canonical SST identity")
      | none, none => assignFlushSstIdentity calls gateActive identity flush
      | _, _ => throw (.internal "flush has an inconsistent canonical SST identity")

/-- A family whose block is nearly used up, with its cursor and the end of the block. -/
def NameState.flushNamePrefetchCandidate (s : NameState) (cfId : ℕ) : Option (ℕ × ℕ × ℕ) :=
  let cursor := (s.cursor cfId).getD (s.manifest.next cfId)
  let bound := (s.reservedThrough cfId).getD 0
  if bound - cursor ≤ sstNamePrefetchRemaining then some (cfId, cursor, bound) else none

/-- Reserve the next block of a family before it is needed. -/
def prefetchFlushSstNames (calls : ReservationCalls) (now : ℕ) (blocked : Bool)
    (families : List ℕ) : NameM Unit := do
  let s ← get
  if !s.hybrid || blocked || s.prefetchRetryAt.any (now < ·) then return ()
  else
    match (0 :: families).findSome? s.flushNamePrefetchCandidate with
    | none => return ()
    | some (cfId, cursor, bound) => do
      -- The cursor must stay where it is when the journal raises the counter.
      modify fun s => { s with
        cursor := update s.cursor cfId (some ((s.cursor cfId).getD cursor)) }
      let result ← attempt (beginSstNameReservation calls cfId (max bound cursor))
      modify fun s => { s with
        prefetchRetryAt := match result with
          | .ok _ => none
          | .error _ => some (now + second) }

/-! ## Compactions -/

inductive CompactionLaunch
  | started
  | waitingForMetadata
  deriving DecidableEq, Repr

/-- What the launch of a compaction meets. -/
structure LaunchCalls where
  expired : Option MidgeError := none
  reload : Option MidgeError := none
  expiredAfterReload : Option MidgeError := none
  reservation : ReservationCalls := {}
  /-- The memory of compactions is taken, or the deadline of the caller has passed. -/
  prepare : Option MidgeError := none
  recheck : ReservationCalls := {}
  run : Option MidgeError := none
  deriving DecidableEq, Repr

/-- The number is not in a block that is reserved, and a mirror is running. -/
def NameState.sstNameWaitsForMetadataMirror (s : NameState) (cfId name : ℕ) : Bool :=
  s.mirror.isSome && (s.reservedThrough cfId).all fun bound => decide (bound ≤ name)

/-- Whether the name of a compaction has to wait for its reservation. -/
def reserveCompactionName (calls : ReservationCalls) (plan : NamedPlan) : NameM Bool := do
  let s ← get
  if s.hybrid then
    if s.sstNameWaitsForMetadataMirror plan.cfId plan.outputSeq then return true
    else beginSstNameReservation calls plan.cfId plan.outputSeq
  else return false

/-- Start a compaction whose name is reserved. Its number counts as given to an output even if
    the compaction does not get to run. -/
def startCompaction (calls : LaunchCalls) (plan : NamedPlan) : NameM CompactionLaunch := do
  check (faultCheck calls.prepare)
  reserveSstNameDurably calls.recheck plan.cfId plan.outputSeq
  modify fun s => { s with admitted := s.admitted ++ [(plan.cfId, plan.outputSeq)] }
  check (faultCheck calls.run)
  return .started

/-- The number of a compaction: one that has it keeps it. -/
def assignCompactionName (plan : NamedPlan) : NameM NamedPlan :=
  if plan.outputSeq = 0 then do
    let name ← allocateCompactionSstName plan.cfId
    return { plan with outputSeq := name }
  else return plan

/-- Launch a compaction, or keep it until its name is reserved. -/
def launchCompaction (calls : LaunchCalls) (plan : NamedPlan) : NameM CompactionLaunch := do
  check (faultCheck calls.expired)
  retryMetadataReload calls.reload
  check (faultCheck calls.expiredAfterReload)
  let plan ← assignCompactionName plan
  let waiting ← reserveCompactionName calls.reservation plan
  if waiting then do
    modify fun s => { s with pendingCompactions := s.pendingCompactions ++ [plan] }
    return .waitingForMetadata
  else startCompaction calls plan

/-- Go on with a compaction after the mirror. -/
def resumeCompaction (calls : LaunchCalls) (canResume : Bool) (plan : NamedPlan)
    (result : Except MidgeError Unit) : NameM Unit :=
  match result with
  | .error _ => return ()
  | .ok () =>
    if canResume then do
      let _ ← (attempt (launchCompaction calls plan) : NameM _)
    else modify fun s => { s with pendingCompactions := s.pendingCompactions ++ [plan] }

/-- Resume the compactions whose names the block has, and keep the others. -/
def resumeCompactions (calls : ℕ → LaunchCalls) (canResume : NamedPlan → Bool)
    (cfId nextSeq : ℕ) (result : Except MidgeError Unit) : ℕ → List NamedPlan → NameM Unit
  | _, [] => return ()
  | i, plan :: plans => do
    if plan.cfId = cfId ∧ plan.outputSeq < nextSeq then
      resumeCompaction (calls i) (canResume plan) plan result
    else modify fun s => { s with pendingCompactions := s.pendingCompactions ++ [plan] }
    resumeCompactions calls canResume cfId nextSeq result (i + 1) plans

/-- Resume the first compaction whose name is reserved. -/
def resumeReservedCompaction (calls : LaunchCalls) (canResume : NamedPlan → Bool) :
    NameM Unit := do
  let s ← get
  match s.pendingCompactions.findIdx? fun plan =>
    !s.sstNameWaitsForMetadataMirror plan.cfId plan.outputSeq && canResume plan with
  | none => return ()
  | some position =>
    match s.pendingCompactions[position]? with
    | none => return ()
    | some plan => do
      modify fun s => { s with pendingCompactions := s.pendingCompactions.eraseIdx position }
      resumeCompaction calls true plan (.ok ())

/-! ## The end of a mirror -/

/-- What the process knows of a block after its reservation. -/
def NameState.noteReservation (now cfId nextSeq : ℕ) (result : Except MidgeError Unit)
    (s : NameState) : NameState :=
  match result with
  | .ok () => { s with
      prefetchRetryAt := none
      reservedThrough := update s.reservedThrough cfId
        (some (max ((s.reservedThrough cfId).getD nextSeq) nextSeq)) }
  | .error _ => { s with prefetchRetryAt := some (now + second) }

/-- A reservation has ended. The names of its block are admitted if it has been selected. -/
def finishSstReservation (calls : ℕ → LaunchCalls) (canResume : NamedPlan → Bool) (now : ℕ)
    (cfId nextSeq : ℕ) (result : Except MidgeError Unit) : NameM Unit := do
  modify (NameState.noteReservation now cfId nextSeq result)
  let s ← get
  modify fun s => { s with pendingFlush := none, pendingCompactions := [] }
  resumeCompactions calls canResume cfId nextSeq result 0 s.pendingCompactions

/-- A mirror has ended. -/
def finishMetadataMirror (calls : ℕ → LaunchCalls) (canResume : NamedPlan → Bool) (now : ℕ)
    (continuation : MirrorContinuation) (result : Except MidgeError Unit) : NameM Unit := do
  modify fun s => { s with mirror := none }
  match continuation with
  | .sstReservation cfId nextSeq =>
    finishSstReservation calls canResume now cfId nextSeq result
  | .recovery cfId first nextSeq => do
    check result
    modify fun s => { s with ranges := update s.ranges cfId (first, nextSeq) }
  | .other => return ()

/-! ## Recovery -/

/-- What a reservation of recovery meets. -/
structure RecoveryCalls where
  lease : Option MidgeError := none
  save : Option MidgeError := none
  mirror : Option MidgeError := none
  deriving DecidableEq, Repr

/-- Reserve a block of names for recovery. -/
def reserveSstSequence (calls : RecoveryCalls) (cfId count : ℕ) : NameM Unit := do
  check (faultCheck calls.lease)
  let s ← get
  let sstSeq := s.manifest.next cfId
  let nextSeq ← check ((checkedAdd sstSeq count).elim
    (.error (.resourceLimit "SST sequence space exhausted during recovery")) .ok)
  modify fun s => { s with manifest := update s.manifest cfId (some nextSeq) }
  check (faultCheck calls.save)
  modify fun s => { s with disk := s.disk.merge s.manifest }
  let _ ← startMetadataMirror calls.mirror (.recovery cfId sstSeq nextSeq)

/-- Take a name from the block, or reserve the next one. -/
def takeRecoveryName (calls : RecoveryCalls) (cfId count : ℕ) : NameM Unit := do
  let s ← get
  check (ensure (s.mirror = none) (.busy "metadata mirror already owns publication"))
  if (s.ranges cfId).1 < (s.ranges cfId).2 then
    modify fun s => { s with
      ranges := update s.ranges cfId ((s.ranges cfId).1 + 1, (s.ranges cfId).2)
      handed := s.handed ++ [(cfId, (s.ranges cfId).1)]
      admitted := s.admitted ++ [(cfId, (s.ranges cfId).1)] }
  else reserveSstSequence calls cfId (max count 1)

/-! ## Turns of the event loop -/

/-- Commit the publication of a flush: its edit raises the counter too. -/
def commitFlushPublication (append : JournalAppend) (cfId nextSstSeq : ℕ) : NameM Unit := do
  let s ← get
  check (ensure (s.reloadRequired = false) (.fenced
    ("manifest and intent log could not be reloaded after a failed publication; " ++
      "refusing to publish from stale metadata")))
  let nextSeq := max (s.manifest.next cfId) nextSstSeq
  let result ← attempt (appendBump append cfId nextSeq)
  match result with
  | .ok _ => modify fun s => { s with manifest := s.manifest.bump cfId nextSeq }
  | .error error => do
    modify fun s => { s with reloadRequired := true }
    throw error

/-- A turn of the event loop. -/
inductive NameTurn
  /-- A memtable is to be flushed. -/
  | freeze (flushId : ℕ) (cfId writerEpoch sequence : ℕ)
  | flush (calls : ReservationCalls) (gateActive : Bool) (identity : FlushIdentity)
  | settle (flushId : ℕ)
  | publish (append : JournalAppend) (cfId nextSstSeq : ℕ)
  | prefetch (calls : ReservationCalls) (now : ℕ) (blocked : Bool) (families : List ℕ)
  | compact (calls : LaunchCalls) (cfId : ℕ)
  | resume (calls : LaunchCalls) (canResume : NamedPlan → Bool)
  /-- The metadata are mirrored for some other reason. -/
  | mirror (fault : Option MidgeError)
  | capture
  /-- A local write has had an uncertain result. -/
  | uncertain

/-- Take a turn. -/
def NameTurn.run : NameTurn → NameM Unit
  | .freeze flushId cfId writerEpoch sequence => modify fun s => { s with
      flushes := update s.flushes flushId (some { cfId, writerEpoch, sequence }) }
  | .flush calls gateActive identity => do
    let _ ← ensureFlushSstIdentity calls gateActive identity
  | .settle flushId => modify fun s => { s with flushes := update s.flushes flushId none }
  | .publish append cfId nextSstSeq => commitFlushPublication append cfId nextSstSeq
  | .prefetch calls now blocked families => prefetchFlushSstNames calls now blocked families
  | .compact calls cfId => do
    let _ ← launchCompaction calls ⟨cfId, 0⟩
  | .resume calls canResume => resumeReservedCompaction calls canResume
  | .mirror fault => do
    let _ ← startMetadataMirror fault .other
  | .capture => captureControlCut
  | .uncertain => modify fun s => { s with reloadRequired := true }

/-! ## Processes -/

/-- The processes, by their epochs, and the metadata of the cloud. -/
structure NameWorld where
  /-- The epoch that may select metadata. -/
  pointerEpoch : ℕ := 0
  /-- A process that has taken the lease, and has not read the metadata yet. -/
  starting : Option ℕ := none
  /-- The captures that have been selected, from the first. -/
  history : List NameCut := []
  processes : ℕ → Option NameState := fun _ => none

namespace NameWorld

variable (w : NameWorld)

/-- The counters that a process starts with. -/
def selected : SstCounters := (w.history.getLast?.map NameCut.counters).getD fun _ => none

/-- A process goes on in another state. -/
def set (s : NameState) : NameWorld :=
  { w with processes := update w.processes s.epoch (some s) }

/-- The capture, or a later one of the process, has been selected. -/
def Covered (epoch ordinal : ℕ) : Prop :=
  ∃ cut ∈ w.history, cut.epoch = epoch ∧ ordinal ≤ cut.ordinal

inductive Step (w : NameWorld) : NameWorld → Prop
  /-- A process takes the lease. Those before it cannot select metadata any more. -/
  | claim {epoch : ℕ} (hepoch : w.pointerEpoch < epoch) :
      Step w { w with pointerEpoch := epoch, starting := some epoch }
  /-- The process takes over the metadata that are selected. -/
  | hydrate {epoch : ℕ} (hstarting : w.starting = some epoch) :
      Step w (({ w with starting := none } : NameWorld).set
        { epoch := epoch, manifest := w.selected, disk := w.selected })
  /-- Recovery takes a name, and ends if it fails. -/
  | recover {s : NameState} {calls : RecoveryCalls} {cfId count : ℕ} {s' : NameState}
      (hprocess : w.processes s.epoch = some s) (hphase : s.phase = .recovering)
      (hok : takeRecoveryName calls cfId count s = .ok () s') : Step w (w.set s')
  | run {s : NameState} (hprocess : w.processes s.epoch = some s)
      (hphase : s.phase = .recovering) (hmirror : s.mirror = none) :
      Step w (w.set { s with phase := .running })
  | turn {s : NameState} (turn : NameTurn) (hprocess : w.processes s.epoch = some s)
      (hphase : s.phase = .running) : Step w (w.set (turn.run.after s))
  /-- A mirror ends. It succeeds only if its capture has been covered, and recovery only goes on
      then. -/
  | complete {s : NameState} {job : MirrorJob} {result : Except MidgeError Unit}
      {calls : ℕ → LaunchCalls} {canResume : NamedPlan → Bool} {now : ℕ}
      (hprocess : w.processes s.epoch = some s) (hphase : s.phase ≠ .crashed)
      (hjob : s.mirror = some job) (hresult : result = .ok () → w.Covered s.epoch job.ordinal)
      (hrecovery : s.phase = .recovering → result = .ok ()) :
      Step w (w.set ((finishMetadataMirror calls canResume now job.continuation result).after s))
  /-- A capture of the process that has the lease is selected, after those before it. -/
  | selects {s : NameState} {cut : NameCut} (hprocess : w.processes s.epoch = some s)
      (hcut : cut ∈ s.cuts) (hepoch : cut.epoch = w.pointerEpoch)
      (hordinal : ∀ last, w.history.getLast? = some last → last.epoch = cut.epoch →
        last.ordinal < cut.ordinal) :
      Step w { w with history := w.history ++ [cut] }
  | crash {s : NameState} (hprocess : w.processes s.epoch = some s) :
      Step w (w.set { s with phase := .crashed })

/-- What can happen from a world without processes. -/
def Reachable (w : NameWorld) : Prop := Relation.ReflTransGen Step {} w

end NameWorld

end Midge
