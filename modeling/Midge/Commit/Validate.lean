import Midge.Commit.Apply
import Midge.Read.Scan

/-!
# Commit validation

A transaction is validated before it gets its sequences. Under the policy
`abortOnWriteConflict` no key that it writes, and no range that it deletes, may have
changed since it began; no asserted key may have; and no key of an insert may
exist.

There are three places to look, in this order: the transactions that are staged
(`StagedWriteOverlay`), a proof that was read in advance, off the loop, at the
same applied sequence (`CommitValidationProof`), and, if there is no proof, the
latest state itself.
-/

namespace Midge

/-- What to do about overlapping writers. -/
inductive ConflictPolicy
  | lastWriteWins
  | abortOnWriteConflict
  deriving DecidableEq, Repr

/-- A key whose value must not have changed since the transaction began. -/
structure KeyAssertion where
  cfId : ℕ
  key : Key
  deriving DecidableEq, Repr

/-- The digits of a byte in an error message. -/
def hexByte (b : Byte) : String :=
  String.ofList [Nat.digitChar (b.val / 16), Nat.digitChar (b.val % 16)]

/-- A byte in an error message. -/
def debugByte (b : Byte) : String :=
  if b.val = 10 then "\\n"
  else if b.val = 13 then "\\r"
  else if b.val = 9 then "\\t"
  else if b.val = 92 then "\\\\"
  else if b.val = 34 then "\\\""
  else if b.val = 0 then "\\0"
  else if 32 ≤ b.val ∧ b.val < 127 then String.ofList [Char.ofNat b.val]
  else "\\x" ++ hexByte b

/-- A key in an error message. -/
def debugBytes (key : Key) : String := "b\"" ++ String.join (key.map debugByte) ++ "\""

/-! ## Staged writes -/

/-- A staged write. -/
inductive StagedMutation
  | point (cfId : ℕ) (key : Key) (sequence : ℕ) («exists» : Bool) (expiration : Option ℕ)
  | range (cfId : ℕ) (start stop : Key) (sequence : ℕ)
  deriving DecidableEq, Repr

/-- What validation has to know of an operation. -/
def TransactionApplyOp.staged : TransactionApplyOp → StagedMutation
  | .put cfId key _ expiration sequence => .point cfId key sequence true expiration
  | .delete cfId key sequence => .point cfId key sequence false none
  | .deleteRange cfId startKey endKey sequence => .range cfId startKey endKey sequence

/-- The staged writes, from the oldest. -/
structure StagedWriteOverlay where
  mutations : List StagedMutation := []
  deriving DecidableEq, Repr

namespace StagedWriteOverlay

variable (overlay : StagedWriteOverlay)

/-- Add the writes of a prepared transaction. -/
def record (prepared : PreparedTransactionAppend) : StagedWriteOverlay :=
  ⟨overlay.mutations ++ prepared.applyOps.map TransactionApplyOp.staged⟩

/-- The sequence of the last staged write that touches the key. -/
def latestKeySequence (cfId : ℕ) (key : Key) : Option ℕ :=
  overlay.mutations.reverse.findSome? fun mutation =>
    match mutation with
    | .point family written sequence _ _ =>
      if family = cfId ∧ written = key then some sequence else none
    | .range family start stop sequence =>
      if family = cfId ∧ start ≤ key ∧ key < stop then some sequence else none

/-- The sequence of the last staged write that touches the range. -/
def latestRangeSequence (cfId : ℕ) (start stop : Key) : Option ℕ :=
  overlay.mutations.reverse.findSome? fun mutation =>
    match mutation with
    | .point family key sequence _ _ =>
      if family = cfId ∧ start ≤ key ∧ key < stop then some sequence else none
    | .range family writtenStart writtenEnd sequence =>
      if family = cfId ∧ start < writtenEnd ∧ writtenStart < stop then some sequence else none

/-- Whether the key exists, if a staged write decides that. -/
def keyExists (cfId : ℕ) (key : Key) (readTimeMillis : ℕ) : Option Bool :=
  overlay.mutations.reverse.findSome? fun mutation =>
    match mutation with
    | .point family written _ «exists» expiration =>
      if family = cfId ∧ written = key then
        some («exists» && !isExpiredAt expiration readTimeMillis)
      else none
    | .range family start stop _ =>
      if family = cfId ∧ start ≤ key ∧ key < stop then some false else none

end StagedWriteOverlay

/-! ## Reads -/

/-- The value of a key, without the value. -/
inductive ValidationValue
  | absent
  | present (expiration : Option ℕ)
  deriving DecidableEq, Repr

/-- The state of a key. Whether it has expired is left to the validation. -/
structure ValidationPointState where
  sequence : Option ℕ
  value : ValidationValue
  deriving DecidableEq, Repr

/-- Whether the key exists. -/
def ValidationPointState.existsAt (point : ValidationPointState) (readTimeMillis : ℕ) : Bool :=
  match point.value with
  | .absent => false
  | .present expiration => !isExpiredAt expiration readTimeMillis

/-- The value that a walk has found. -/
def PointReadWalk.validationValue (walk : PointReadWalk) : ValidationValue :=
  match walk.bestState with
  | some (.value _ sequence expiration _) =>
    if walk.coveringTombstoneSeq.all (· < sequence) then .present expiration else .absent
  | _ => .absent

/-- A bound of a range; an empty key stands for none. -/
def optionalBound (key : Key) : Option Key := if List.isEmpty key then none else some key

/-- A value that has expired counts as a tombstone. -/
def normalizeExpiredState (state : KeyState) (nowMillis : ℕ) : KeyState :=
  match state with
  | .value value sequence expiration opType =>
    if isExpiredAt expiration nowMillis then .tombstone sequence
    else .value value sequence expiration opType
  | state => state

/-- The sequence of a state, if it is newer than the threshold. -/
def newerSequence (threshold : ℕ) (state : KeyState) : Option ℕ :=
  (stateSequence state).filter (threshold < ·)

/-- A sequence newer than the threshold of a key of the range in a memtable. -/
def Memtable.newerState (m : Memtable) (range : ScanRange) (threshold nowMillis : ℕ) : Option ℕ :=
  (m.rangeStateCursor range).findSome? fun entry =>
    newerSequence threshold (normalizeExpiredState entry.2 nowMillis)

/-- The sequence of a range tombstone in a memtable that is newer than the threshold
    and overlaps the range. -/
def Memtable.newerTombstone (m : Memtable) (range : ScanRange) (threshold : ℕ) : Option ℕ :=
  ((m.rangeTombstonesAt usizeMax).find? fun t =>
    range.rangeTombstoneOverlapsQuery t && decide (threshold < t.seq)).map RangeTombstone.seq

/-- The sequence of a range tombstone in an SST that is newer than the threshold and
    overlaps the range. -/
def SstContents.newerOverlappingRangeTombstoneSeq (d : SstContents) (range : ScanRange)
    (threshold : ℕ) : Option ℕ :=
  (d.tombstones.find? fun t => decide (threshold < t.seq) && range.stop.all (t.start < ·) &&
    range.start.all (· < t.stop)).map RangeTombstone.seq

/-- The first sequence newer than the threshold of the entries of a scan. -/
def newerEntry (threshold : ℕ) : List (MidgeResult StateEntry) → MidgeResult (Option ℕ)
  | [] => .ok none
  | .error error :: _ => .error error
  | .ok entry :: entries =>
    match newerSequence threshold entry.2 with
    | some sequence => .ok (some sequence)
    | none => newerEntry threshold entries

namespace ReadSnapshot

variable (s : ReadSnapshot)

/-- The state of a key up to a sequence. -/
def validationPointState (key : Key) (sequence : ℕ) : MidgeResult ValidationPointState := do
  let walk ← s.walkPoint key sequence
  return ⟨walk.decidedSequence.filter (0 < ·), walk.validationValue⟩

/-- A sequence newer than the threshold in the memtables. -/
def newerInMemtables (range : ScanRange) (threshold : ℕ) : Option ℕ :=
  s.memtable.newerState range threshold s.readTimeMillis <|>
    s.immutableMemtables.findSome? (fun m =>
      m.newerState range threshold s.readTimeMillis <|> m.newerTombstone range threshold) <|>
    s.memtable.newerTombstone range threshold

/-- A sequence newer than the threshold in the files. The recorded sequences may rule
    out a file before it is opened. -/
def newerInFiles (range : ScanRange) (threshold : ℕ) : List FileMeta → MidgeResult (Option ℕ)
  | [] => .ok none
  | file :: files =>
    if file.keyBoundsComplete && file.largestSeq.any (· ≤ threshold) then
      newerInFiles range threshold files
    else do
      let reader ← s.sstReader file
      match reader.newerOverlappingRangeTombstoneSeq range threshold with
      | some sequence => return some sequence
      | none =>
        let found ← newerEntry threshold (reader.rawStateScan range)
        match found with
        | some sequence => return some sequence
        | none => newerInFiles range threshold files

/-- The files that may hold keys of the range. -/
def rangeFiles (range : ScanRange) : List FileMeta :=
  let candidates := s.sstView.rangeCandidates range.start range.stop
  candidates.l0.flatten ++ candidates.levels.flatMap fun level => level.ordered ++ level.fallback

/-- The range of keys from `start` to `stop`, in the latest state. -/
def latestRange (start stop : Key) : ScanRange where
  start := optionalBound start
  stop := optionalBound stop
  reverse := false
  sequence := usizeMax

/-- A sequence newer than the threshold that touches the range, if there is any. -/
def anySequenceAfterInRange (start stop : Key) (threshold : ℕ) : MidgeResult (Option ℕ) :=
  let range := latestRange start stop
  match s.newerInMemtables range threshold with
  | some sequence => .ok (some sequence)
  | none => if s.memoryMode then .ok none else s.newerInFiles range threshold (s.rangeFiles range)

end ReadSnapshot

/-! ## Proofs -/

/-- What was read in advance. -/
structure CommitValidationProof where
  appliedSequence : ℕ
  points : List ((ℕ × Key) × ValidationPointState) := []
  ranges : List ((ℕ × Key × Key) × Option ℕ) := []
  deriving DecidableEq, Repr

namespace CommitValidationProof

/-- The snapshot of a family. -/
def snapshot (snapshots : ℕ → Option ReadSnapshot) (cfId : ℕ) : MidgeResult ReadSnapshot :=
  (snapshots cfId).elim (.error (.invalidArgument s!"column family {cfId} does not exist")) .ok

/-- Read a key, unless it has been read. -/
def readPoint (proof : CommitValidationProof) (snapshots : ℕ → Option ReadSnapshot) (cfId : ℕ)
    (key : Key) : MidgeResult CommitValidationProof :=
  if (proof.points.lookup (cfId, key)).isSome then .ok proof
  else do
    let reader ← snapshot snapshots cfId
    let point ← reader.validationPointState key proof.appliedSequence
    return { proof with points := ((cfId, key), point) :: proof.points }

/-- Read a range. -/
def readRange (proof : CommitValidationProof) (snapshots : ℕ → Option ReadSnapshot) (cfId : ℕ)
    (startKey endKey : Key) (startSequence : Option ℕ) : MidgeResult CommitValidationProof := do
  let threshold ← startSequence.elim
    (.error (.invalidArgument "AbortOnWriteConflict requires transaction start_sequence")) .ok
  let reader ← snapshot snapshots cfId
  let sequence ← reader.anySequenceAfterInRange startKey endKey threshold
  return { proof with ranges := ((cfId, startKey, endKey), sequence) :: proof.ranges }

/-- Read what the validation of an operation needs. -/
def readOp (snapshots : ℕ → Option ReadSnapshot) (conflictPolicy : ConflictPolicy)
    (startSequence : Option ℕ) (proof : CommitValidationProof) (op : TransactionOp) :
    MidgeResult CommitValidationProof :=
  match op with
  | .put cfId key _ _ insertOnly =>
    if insertOnly ∨ conflictPolicy = .abortOnWriteConflict then proof.readPoint snapshots cfId key
    else .ok proof
  | .delete cfId key =>
    if conflictPolicy = .abortOnWriteConflict then proof.readPoint snapshots cfId key
    else .ok proof
  | .deleteRange cfId startKey endKey =>
    if conflictPolicy = .abortOnWriteConflict then
      proof.readRange snapshots cfId startKey endKey startSequence
    else .ok proof

/-- Read what the validation of a transaction needs. The deadline may end it between
    two reads. -/
def read (appliedSequence : ℕ) (snapshots : ℕ → Option ReadSnapshot) (ops : List TransactionOp)
    (assertions : List KeyAssertion) (conflictPolicy : ConflictPolicy)
    (startSequence : Option ℕ) : MidgeExec CommitValidationProof := do
  let proof ← ops.foldlM (fun proof op => do
    Exec.ask
    Exec.ofExcept (readOp snapshots conflictPolicy startSequence proof op)) { appliedSequence }
  assertions.foldlM (fun proof assertion => do
    Exec.ask
    Exec.ofExcept (proof.readPoint snapshots assertion.cfId assertion.key)) proof

/-- What was read of a key. -/
def point (proof : CommitValidationProof) (cfId : ℕ) (key : Key) :
    MidgeResult ValidationPointState :=
  (proof.points.lookup (cfId, key)).elim
    (.error (.internal "detached validation omitted a point read")) .ok

/-- What was read of a range. -/
def range (proof : CommitValidationProof) (cfId : ℕ) (start stop : Key) :
    MidgeResult (Option ℕ) :=
  (proof.ranges.lookup (cfId, start, stop)).elim
    (.error (.internal "detached validation omitted a range read")) .ok

end CommitValidationProof

/-! ## Validation -/

/-- Where validation looks. -/
structure ValidationSnapshots where
  state : RuntimeState
  overlay : Option StagedWriteOverlay := none
  proof : Option CommitValidationProof := none

namespace ValidationSnapshots

variable (snapshots : ValidationSnapshots)

/-- The latest sequence that touches a key. -/
def latestKeySequence (cfId : ℕ) (key : Key) : MidgeResult (Option ℕ) :=
  match snapshots.overlay.bind (·.latestKeySequence cfId key) with
  | some sequence => .ok (some sequence)
  | none =>
    match snapshots.proof with
    | some proof => ValidationPointState.sequence <$> proof.point cfId key
    | none =>
      (snapshots.state.latestSequenceSnapshot cfId).elim (.ok none) (·.latestStateSequence key)

/-- A sequence newer than the threshold that touches a range, if there is any. -/
def anyRangeSequenceAfter (cfId : ℕ) (startKey endKey : Key) (threshold : ℕ) :
    MidgeResult (Option ℕ) :=
  match (snapshots.overlay.bind (·.latestRangeSequence cfId startKey endKey)).filter
      (threshold < ·) with
  | some sequence => .ok (some sequence)
  | none =>
    match snapshots.proof with
    | some proof => proof.range cfId startKey endKey
    | none =>
      (snapshots.state.latestSequenceSnapshot cfId).elim (.ok none)
        (·.anySequenceAfterInRange startKey endKey threshold)

/-- Whether a key exists. -/
def keyExists (cfId : ℕ) (key : Key) : MidgeResult Bool :=
  match snapshots.overlay.bind (·.keyExists cfId key snapshots.state.observedTimeMillis) with
  | some «exists» => .ok «exists»
  | none =>
    match snapshots.proof with
    | some proof => (·.existsAt snapshots.state.observedTimeMillis) <$> proof.point cfId key
    | none =>
      (snapshots.state.latestSequenceSnapshot cfId).elim (.ok false) fun snapshot =>
        Option.isSome <$> snapshot.getBytes key usizeMax

/-- Fail if a key has been touched after the transaction began. -/
def ensureKeyUnchanged (kind : String) (startSequence cfId : ℕ) (key : Key) :
    MidgeResult Unit := do
  let latest ← snapshots.latestKeySequence cfId key
  match latest.filter (startSequence < ·) with
  | some latestSeq =>
    .error (.writeConflict (s!"{kind} conflict on cf {cfId} for key {debugBytes key}: " ++
      s!"latest seq {latestSeq} > tx start {startSequence}"))
  | none =>
    match (snapshots.state.latestCoveringDeleteRangeSequence cfId key).filter
        (startSequence < ·) with
    | some rangeSeq =>
      .error (.writeConflict (s!"{kind} conflict on cf {cfId} for key {debugBytes key}: " ++
        s!"covered by delete-range seq {rangeSeq} > tx start {startSequence}"))
    | none => .ok ()

/-- Fail if a range has been touched after the transaction began. -/
def ensureRangeUnchanged (startSequence cfId : ℕ) (startKey endKey : Key) :
    MidgeResult Unit := do
  let latest ← snapshots.anyRangeSequenceAfter cfId startKey endKey startSequence
  match latest with
  | some latestSeq =>
    .error (.writeConflict (s!"range conflict on cf {cfId} for " ++
      s!"[{debugBytes startKey}, {debugBytes endKey}): " ++
      s!"latest seq {latestSeq} > tx start {startSequence}"))
  | none =>
    match (snapshots.state.latestOverlappingDeleteRangeSequence cfId startKey endKey).filter
        (startSequence < ·) with
    | some rangeSeq =>
      .error (.writeConflict (s!"range conflict on cf {cfId} for " ++
        s!"[{debugBytes startKey}, {debugBytes endKey}): " ++
        s!"overlaps delete-range seq {rangeSeq} > tx start {startSequence}"))
    | none => .ok ()

/-- Fail if a key or a range that the operations write has been touched. A key is
    looked at once. -/
def ensureNoWriteConflicts (startSequence : ℕ) :
    List (ℕ × Key) → List TransactionOp → MidgeResult Unit
  | _, [] => .ok ()
  | checkedKeys, op :: ops =>
    match op with
    | .put cfId key _ _ _ | .delete cfId key =>
      if (cfId, key) ∈ checkedKeys then ensureNoWriteConflicts startSequence checkedKeys ops
      else do
        snapshots.ensureKeyUnchanged "key" startSequence cfId key
        ensureNoWriteConflicts startSequence ((cfId, key) :: checkedKeys) ops
    | .deleteRange cfId startKey endKey => do
      snapshots.ensureRangeUnchanged startSequence cfId startKey endKey
      ensureNoWriteConflicts startSequence checkedKeys ops

/-- Fail if an asserted key has been touched. -/
def ensureNoAssertionConflicts (startSequence : ℕ) :
    List (ℕ × Key) → List KeyAssertion → MidgeResult Unit
  | _, [] => .ok ()
  | checkedKeys, ⟨cfId, key⟩ :: assertions =>
    if (cfId, key) ∈ checkedKeys then
      ensureNoAssertionConflicts startSequence checkedKeys assertions
    else if (snapshots.state.columnFamilies cfId).isNone then
      .error (.invalidArgument s!"column family {cfId} does not exist")
    else do
      snapshots.ensureKeyUnchanged "assertion" startSequence cfId key
      ensureNoAssertionConflicts startSequence ((cfId, key) :: checkedKeys) assertions

end ValidationSnapshots

/-- An operation of the transaction itself, as far as existence goes. -/
inductive TransactionIntent
  | point (cfId : ℕ) (key : Key) («exists» : Bool)
  | range (cfId : ℕ) (start stop : Key)
  deriving DecidableEq, Repr

/-- The intent of an operation. -/
def TransactionOp.intent : TransactionOp → TransactionIntent
  | .put cfId key _ _ _ => .point cfId key true
  | .delete cfId key => .point cfId key false
  | .deleteRange cfId startKey endKey => .range cfId startKey endKey

/-- Whether the key exists, if the intents decide that. The last intent comes first. -/
def existsAfterIntents (cfId : ℕ) (key : Key) (intents : List TransactionIntent) : Option Bool :=
  intents.findSome? fun intent =>
    match intent with
    | .point intentCf intentKey «exists» =>
      if intentCf = cfId ∧ intentKey = key then some «exists» else none
    | .range intentCf start stop =>
      if intentCf = cfId ∧ start ≤ key ∧ key < stop then some false else none

/-- Fail if an insert finds its key, after the intents before it. The last intent
    comes first. -/
def ensureInsertsAbsent (snapshots : ValidationSnapshots) :
    List TransactionIntent → List TransactionOp → MidgeResult Unit
  | _, [] => .ok ()
  | intents, op :: ops =>
    match op with
    | .put cfId key _ _ true => do
      let «exists» ← (existsAfterIntents cfId key intents).elim (snapshots.keyExists cfId key) .ok
      if «exists» then .error (.invalidArgument "key already exists")
      else ensureInsertsAbsent snapshots (op.intent :: intents) ops
    | _ => ensureInsertsAbsent snapshots (op.intent :: intents) ops

/-- The start sequence, where the transaction needs one. -/
def requireStartSequence (message : String) (startSequence : Option ℕ) : MidgeResult ℕ :=
  startSequence.elim (.error (.invalidArgument message)) .ok

/-- What a transaction is validated by. -/
structure TransactionValidation where
  ops : List TransactionOp
  assertions : List KeyAssertion := []
  startSequence : Option ℕ
  conflictPolicy : ConflictPolicy
  deriving DecidableEq, Repr

/-- Look for write conflicts, if the policy asks for it. -/
def ValidationSnapshots.checkWrites (snapshots : ValidationSnapshots)
    (validation : TransactionValidation) : MidgeResult Unit :=
  match validation.conflictPolicy with
  | .lastWriteWins => .ok ()
  | .abortOnWriteConflict => do
    let startSequence ← requireStartSequence
      "AbortOnWriteConflict requires transaction start_sequence" validation.startSequence
    snapshots.ensureNoWriteConflicts startSequence [] validation.ops

/-- Look at the assertions, whatever the policy. -/
def ValidationSnapshots.checkAssertions (snapshots : ValidationSnapshots)
    (validation : TransactionValidation) : MidgeResult Unit :=
  if validation.assertions = [] then .ok ()
  else do
    let startSequence ← requireStartSequence "assert_value requires transaction start_sequence"
      validation.startSequence
    snapshots.ensureNoAssertionConflicts startSequence [] validation.assertions

/-- Validate a transaction. -/
def validateTransactionPreconditions (state : RuntimeState) (validation : TransactionValidation)
    (overlay : StagedWriteOverlay) (proof : Option CommitValidationProof) :
    MidgeResult Unit := do
  let snapshots : ValidationSnapshots := ⟨state, some overlay, proof⟩
  snapshots.checkWrites validation
  snapshots.checkAssertions validation
  ensureInsertsAbsent snapshots [] validation.ops

end Midge
