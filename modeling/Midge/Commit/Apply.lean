import Midge.Read.PointRead
import Midge.Wal.Sequence

/-!
# Transactions on the runtime state

The operations of a transaction get their sequences when it is prepared, one
after the other (`buildApplyOps`). Later they are applied: a write goes
to the active memtable of its family, and a range deletion also to the list of
recent ones (`applyTransactionOps`).

Between the two a transaction is *staged*. Its sequences follow all those that
have been applied, and those of the transactions staged before it (`Staged`).
-/

namespace Midge

/-! ## Operations -/

/-- An operation of a transaction. -/
inductive TransactionOp
  | put (cfId : ℕ) (key : Key) (value : Value) (ttlSeconds : Option ℕ) (insertOnly : Bool)
  | delete (cfId : ℕ) (key : Key)
  | deleteRange (cfId : ℕ) (startKey endKey : Key)
  deriving DecidableEq, Repr

/-- The family that an operation writes. -/
def TransactionOp.cfId : TransactionOp → ℕ
  | .put cfId .. | .delete cfId _ | .deleteRange cfId _ _ => cfId

/-- A range deletion deletes something: the API takes no other. -/
def TransactionOp.Proper : TransactionOp → Prop
  | .deleteRange _ startKey endKey => startKey < endKey
  | _ => True

/-- An operation ready for the memtable. -/
inductive TransactionApplyOp
  | put (cfId : ℕ) (key : Key) (value : Value) (expiration : Option ℕ) (sequence : ℕ)
  | delete (cfId : ℕ) (key : Key) (sequence : ℕ)
  | deleteRange (cfId : ℕ) (startKey endKey : Key) (sequence : ℕ)
  deriving DecidableEq, Repr

/-- When a value with this TTL expires. -/
def expirationFromTtl (ttlSeconds : Option ℕ) (commitTimeMillis : ℕ) : Option ℕ :=
  (ttlSeconds.filter (0 < ·)).map fun ttl => satAdd commitTimeMillis (satMul ttl 1000)

namespace TransactionApplyOp

/-- The operation at a sequence. -/
def fromSource (op : TransactionOp) (sequence commitTimeMillis : ℕ) : TransactionApplyOp :=
  match op with
  | .put cfId key value ttlSeconds _ =>
    .put cfId key value (expirationFromTtl ttlSeconds commitTimeMillis) sequence
  | .delete cfId key => .delete cfId key sequence
  | .deleteRange cfId startKey endKey => .deleteRange cfId startKey endKey sequence

/-- The sequence of an operation. -/
def sequence : TransactionApplyOp → ℕ
  | .put _ _ _ _ sequence | .delete _ _ sequence | .deleteRange _ _ _ sequence => sequence

/-- The family that an operation writes. -/
def cfId : TransactionApplyOp → ℕ
  | .put cfId .. | .delete cfId _ _ | .deleteRange cfId _ _ _ => cfId

/-- A range deletion deletes something. -/
def Proper : TransactionApplyOp → Prop
  | .deleteRange _ startKey endKey _ => startKey < endKey
  | _ => True

end TransactionApplyOp

/-- The operations of a transaction at consecutive sequences. -/
def buildApplyOps (ops : List TransactionOp) (firstOpSeq commitTimeMillis : ℕ) :
    List TransactionApplyOp :=
  ops.mapIdx fun ordinal op => .fromSource op (firstOpSeq + ordinal) commitTimeMillis

/-- A transaction that has got its sequences. -/
structure PreparedTransactionAppend where
  sequencePlan : TxnSequencePlan
  applyOps : List TransactionApplyOp
  deriving DecidableEq, Repr

/-! ## The state -/

/-- The memtables of a family. -/
structure ColumnFamilyState where
  memtable : Memtable
  /-- From the oldest to the newest. -/
  immutableMemtables : List Memtable

/-- A range deletion that was applied not long ago. -/
structure RecentDeleteRange where
  cfId : ℕ
  startKey : Key
  endKey : Key
  sequence : ℕ
  deriving DecidableEq, Repr

/-- How many range deletions are remembered. -/
def maxRecentDeleteRanges : ℕ := 4096

/-- The part of the runtime state that commits read and write. -/
structure RuntimeState where
  columnFamilies : ℕ → Option ColumnFamilyState
  /-- The SST catalog of each family, as the manifest has it. -/
  readViewFor : ℕ → SstReadView
  sstReader : FileMeta → MidgeResult SstContents
  memoryMode : Bool := false
  recentDeleteRanges : List RecentDeleteRange := []
  oldestActiveSnapshotSequence : Option ℕ := none
  /-- The end of what has been applied completely. -/
  appliedSequence : ℕ
  observedTimeMillis : ℕ

/-- Add a version, unless there is one of the key at its sequence. -/
def Memtable.insert (m : Memtable) (v : RawSstVersion) : MidgeResult Memtable :=
  if h : ∀ w ∈ m.versions, w.key = v.key → w.seq ≠ v.seq then
    .ok { m with
      versions := v :: m.versions
      unique := by
        intro a ha b hb hk hs
        rcases List.mem_cons.1 ha with rfl | ha
        · rcases List.mem_cons.1 hb with hb | hb
          · exact hb.symm
          · exact absurd hs.symm (h b hb hk.symm)
        · rcases List.mem_cons.1 hb with hb | hb
          · exact absurd (hb ▸ hs) (h a ha (hb ▸ hk))
          · exact m.unique a ha b hb hk hs }
  else .error (.corruption s!"duplicate memtable key/sequence pair at sequence {v.seq}")

/-- Add a value. -/
def Memtable.putBytesWithSeq (m : Memtable) (key : Key) (value : Value) (seq : ℕ)
    (expiration : Option ℕ) : MidgeResult Memtable :=
  m.insert ⟨key, seq, false, some value, expiration⟩

/-- Add a tombstone. -/
def Memtable.deleteBytesWithSeq (m : Memtable) (key : Key) (seq : ℕ) : MidgeResult Memtable :=
  m.insert ⟨key, seq, true, none, none⟩

/-- Add a range tombstone, unless its range is empty. -/
def Memtable.deleteRangeWithSeq (m : Memtable) (startKey endKey : Key) (seq : ℕ) : Memtable :=
  if endKey ≤ startKey then m
  else { m with tombstones := m.tombstones ++ [⟨startKey, endKey, seq⟩] }

namespace RuntimeState

variable (state : RuntimeState)

/-- Replace the memtables of a family. -/
def setFamily (cfId : ℕ) (family : ColumnFamilyState) : RuntimeState :=
  { state with columnFamilies := Function.update state.columnFamilies cfId (some family) }

/-- Remember a range deletion. The oldest ones are forgotten, and those that no
    snapshot is older than. -/
def recordDeleteRange (cfId : ℕ) (startKey endKey : Key) (sequence : ℕ) : RuntimeState :=
  let ranges := state.recentDeleteRanges ++ [⟨cfId, startKey, endKey, sequence⟩]
  let ranges := ranges.drop (ranges.length - maxRecentDeleteRanges)
  { state with
    recentDeleteRanges :=
      match state.oldestActiveSnapshotSequence with
      | none => []
      | some oldest => ranges.filter fun entry => oldest < entry.sequence }

/-- The sequence of the last remembered range deletion that covers the key. -/
def latestCoveringDeleteRangeSequence (cfId : ℕ) (key : Key) : Option ℕ :=
  (state.recentDeleteRanges.reverse.find? fun entry =>
    entry.cfId = cfId ∧ entry.startKey ≤ key ∧ key < entry.endKey).map
      RecentDeleteRange.sequence

/-- The sequence of the last remembered range deletion that overlaps the range. -/
def latestOverlappingDeleteRangeSequence (cfId : ℕ) (startKey endKey : Key) : Option ℕ :=
  (state.recentDeleteRanges.reverse.find? fun entry =>
    entry.cfId = cfId ∧ entry.startKey < endKey ∧ startKey < entry.endKey).map
      RecentDeleteRange.sequence

/-- A snapshot of the latest state of a family. -/
def latestSequenceSnapshot (cfId : ℕ) : Option ReadSnapshot :=
  (state.columnFamilies cfId).map fun family =>
    { memtable := family.memtable
      immutableMemtables := family.immutableMemtables
      sstView := state.readViewFor cfId
      sstReader := state.sstReader
      memoryMode := state.memoryMode
      readTimeMillis := state.observedTimeMillis }

/-! ## Applying -/

/-- Apply a write. -/
def applyToMemtable (sequence cfId : ℕ) (key : Key) (value : Option Value)
    (expiration : Option ℕ) : MidgeResult RuntimeState :=
  match state.columnFamilies cfId with
  | none =>
    .error (.internal
      s!"column family {cfId} disappeared between validation and memtable apply")
  | some family => do
    let memtable ← value.elim (family.memtable.deleteBytesWithSeq key sequence) fun value =>
      family.memtable.putBytesWithSeq key value sequence expiration
    return state.setFamily cfId { family with memtable }

/-- Apply a range deletion. -/
def applyDeleteRangeToMemtable (sequence cfId : ℕ) (startKey endKey : Key) :
    MidgeResult RuntimeState :=
  match state.columnFamilies cfId with
  | none =>
    .error (.internal s!"column family {cfId} disappeared between validation and range apply")
  | some family =>
    .ok ((state.setFamily cfId { family with
      memtable := family.memtable.deleteRangeWithSeq startKey endKey sequence }).recordDeleteRange
        cfId startKey endKey sequence)

/-- Apply an operation. -/
def applyTransactionOpToMemtable : TransactionApplyOp → MidgeResult RuntimeState
  | .put cfId key value expiration sequence =>
    state.applyToMemtable sequence cfId key (some value) expiration
  | .delete cfId key sequence => state.applyToMemtable sequence cfId key none none
  | .deleteRange cfId startKey endKey sequence =>
    state.applyDeleteRangeToMemtable sequence cfId startKey endKey

/-- Apply operations one after the other. -/
def applyTransactionOps (ops : List TransactionApplyOp) : MidgeResult RuntimeState :=
  ops.foldlM applyTransactionOpToMemtable state

/-- Apply a prepared transaction. -/
def applyPrepared (unit : PreparedTransactionAppend) : MidgeResult RuntimeState := do
  let state ← state.applyTransactionOps unit.applyOps
  return { state with appliedSequence := unit.sequencePlan.commitSeq }

/-- Apply prepared transactions one after the other. -/
def applyPreparedGroup (units : List PreparedTransactionAppend) : MidgeResult RuntimeState :=
  units.foldlM applyPrepared state

end RuntimeState

/-- Transactions prepared one after the other, each for a family that is there,
    with sequences that follow `after`. -/
inductive Staged (state : RuntimeState) : ℕ → List PreparedTransactionAppend → Prop
  | nil (after : ℕ) : Staged state after []
  | cons {after commitTimeMillis : ℕ} {plan : TxnSequencePlan} {ops : List TransactionOp}
      {units : List PreparedTransactionAppend} (hbegin : after < plan.beginSeq)
      (hfirst : plan.firstOpSeq = plan.beginSeq + 1)
      (hcommit : plan.commitSeq = plan.beginSeq + ops.length + 1)
      (hfamily : (state.columnFamilies plan.cfId).isSome) (hops : ∀ op ∈ ops, op.cfId = plan.cfId)
      (hproper : ∀ op ∈ ops, op.Proper) (hunits : Staged state plan.commitSeq units) :
      Staged state after (⟨plan, buildApplyOps ops plan.firstOpSeq commitTimeMillis⟩ :: units)

end Midge
