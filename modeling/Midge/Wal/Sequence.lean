import Midge.Wal.LedgerStore

/-!
# Sequence allocation

Every sequence that the engine hands out lies at or below the reservation that the WAL
ledger has made durable. A process that crashes after it has handed out sequences leaves
the reservation behind, and the next process starts above it.

The ledger is written through a journal. A write that fails may have made its edit durable
or not: `LedgerJournal` has the ledger as it is persisted, and the edits that may be
durable besides.
-/

namespace Midge

open Update

/-! ## The journal of the ledger -/

/-- The ledger as it is persisted, and the edits whose writes have failed since. -/
structure LedgerJournal where
  ledger : WalLedger
  failed : List LedgerEdit := []
  deriving DecidableEq

namespace LedgerJournal

/-- The ledger may be the one that the next process loads. -/
def Survives (journal : LedgerJournal) (ledger : WalLedger) : Prop :=
  ledger = journal.ledger ∨
    ∃ edit ∈ journal.failed, WalLedger.apply edit journal.ledger = .ok () ledger

/-- Make an edit durable, then apply it. An edit that does not apply is refused. -/
def append (fault : Option MidgeError) (edit : LedgerEdit) :
    Update MidgeError LedgerJournal Unit := fun journal =>
  match WalLedger.apply edit journal.ledger with
  | .error refusal _ => .error refusal.toMidge journal
  | .ok _ next =>
    match fault with
    | none => .ok () ⟨next, []⟩
    | some error => .error error { journal with failed := journal.failed ++ [edit] }

/-- Make the journal describe the ledger again after a failed write. -/
def heal (fault : Option MidgeError) : Update MidgeError LedgerJournal Unit := do
  check (faultCheck fault)
  modify fun journal => { journal with failed := [] }

end LedgerJournal

/-! ## The history of a process -/

/-- How the store of the writer's lease lets an effect happen: it admits it, it refuses
    it, or it fails after the effect. -/
inductive WriterFence
  | admits
  | refuses (error : MidgeError)
  | loses (error : MidgeError)
  deriving DecidableEq

/-- Run an effect under the fence of the writer. -/
def WriterFence.run {σ α : Type} (fence : WriterFence) (effect : Update MidgeError σ α) :
    Update MidgeError σ α :=
  match fence with
  | .admits => effect
  | .refuses error => throw error
  | .loses error => do
    let _ ← (attempt effect : Update MidgeError σ _)
    throw error

/-- The ledger that a process writes through, and the epoch that new segments carry. -/
structure WalHistory where
  journal : LedgerJournal
  epoch : ℕ
  deriving DecidableEq

/-- A segment that the start of an epoch has sealed. -/
structure SealedSegment where
  id : SegmentId
  epoch : ℕ
  facts : SealedFacts
  deriving DecidableEq

/-- What a scan of the open segment has found: its records, whether it has a footer, and
    the facts of the footer that it has or needs. -/
structure OpenScan where
  recordCount : ℕ
  hasFooter : Bool
  facts : SealedFacts
  deriving DecidableEq

/-- How the calls end that the start of an epoch makes. Without segment files there is
    no scan. -/
structure EpochCalls where
  fence : WriterFence := .admits
  heal : Option MidgeError := none
  scan : MidgeResult (Option OpenScan)
  seals : Option MidgeError := none
  creates : Option MidgeError := none
  append : Option MidgeError := none
  sweep : Option MidgeError := none

/-- How the calls end that a reservation makes. -/
structure ReserveCalls where
  fence : WriterFence := .admits
  append : Option MidgeError := none

namespace WalHistory

def ledger (history : WalHistory) : WalLedger := history.journal.ledger

/-- Update the journal. -/
def onJournal {α : Type} (x : Update MidgeError LedgerJournal α) : Update MidgeError WalHistory α :=
  x.zoom journal fun journal history => { history with journal }

/-- Make an edit durable, then apply it. -/
def commit (fault : Option MidgeError) (edit : LedgerEdit) : Update MidgeError WalHistory Unit :=
  onJournal (LedgerJournal.append fault edit)

/-- Replace an open segment that holds no record. -/
def replaceOpen (calls : EpochCalls) (facts : OpenFacts) : Update MidgeError WalHistory Unit := do
  check (faultCheck calls.creates)
  commit calls.append (.reopen facts)
  check (faultCheck calls.sweep)

/-- Keep an open segment that holds no record when this epoch has created it, and replace
    it otherwise. -/
def keepOrReplace (calls : EpochCalls) (scan : Option OpenScan) (epoch firstSeq : ℕ) :
    Update MidgeError WalHistory Unit := do
  let history ← get
  let member := history.ledger.openMember.openFacts
  if member.epoch = epoch ∧ ¬ scan.any (·.hasFooter) then pure ()
  else
    replaceOpen calls
      ⟨history.ledger.nextSegmentId, epoch, max firstSeq member.firstSeq, member.prev⟩

/-- Seal an open segment that holds records, and open the next one. -/
def sealOpen (calls : EpochCalls) (facts : SealedFacts) (opens : OpenFacts) :
    Update MidgeError WalHistory Unit := do
  check (faultCheck calls.seals)
  check (faultCheck calls.creates)
  commit calls.append (.rotate facts opens)

def startEpochInner (calls : EpochCalls) (epoch firstSeq : ℕ) :
    Update MidgeError WalHistory (Option SealedSegment) := do
  onJournal (LedgerJournal.heal calls.heal)
  modify fun history => { history with epoch }
  let history ← get
  let member := history.ledger.openMember.openFacts
  let scan ← check calls.scan
  match scan.filter (0 < ·.recordCount) with
  | none =>
    keepOrReplace calls scan epoch firstSeq
    return none
  | some scan =>
    sealOpen calls scan.facts ⟨history.ledger.nextSegmentId, epoch, firstSeq, scan.facts.link⟩
    return some ⟨member.id, member.epoch, scan.facts⟩

/-- Start the epoch of a process, over the open segment that recovery has left. -/
def startEpoch (calls : EpochCalls) (epoch firstSeq : ℕ) :
    Update MidgeError WalHistory (Option SealedSegment) :=
  calls.fence.run (startEpochInner calls epoch firstSeq)

/-- Make the sequence reservation reach `through`. -/
def reserve (calls : ReserveCalls) (through : ℕ) : Update MidgeError WalHistory Unit :=
  calls.fence.run (commit calls.append (.reserve through))

end WalHistory

/-! ## Allocation -/

/-- Consecutive sequences. -/
structure SequenceRange where
  first : ℕ
  last : ℕ
  deriving DecidableEq, Repr

instance : Membership ℕ SequenceRange := ⟨fun range seq => range.first ≤ seq ∧ seq ≤ range.last⟩

/-- What an allocation needs. -/
inductive Allocation
  /-- The reservation covers these sequences. -/
  | ready (range : SequenceRange)
  /-- The reservation must first reach `through`. -/
  | needsReservation (through : ℕ)
  deriving DecidableEq, Repr

namespace Sequence

/-- How far past the latest allocation one reservation reaches. -/
def reservationBlock : ℕ := 2 ^ 20

/-- Allocate `count` sequences after `last`; `none` when the sequence space is exhausted.
    The greatest `u64` marks a dropped family. -/
def allocate (last reservedThrough count : ℕ) : Option Allocation := do
  let first ← checkedAdd last 1
  let stop ← checkedAdd last (max count 1)
  if stop = usizeMax then none
  else if stop ≤ reservedThrough then some (.ready ⟨first, stop⟩)
  else some (.needsReservation stop)

/-- The reservation to persist before an allocation, when less than half a block would
    remain past it. -/
def refillDue (last reservedThrough count : ℕ) : Option ℕ :=
  let stop := satAdd last (max count 1)
  if stop ≤ reservedThrough ∧ reservationBlock / 2 ≤ reservedThrough - stop then none
  else some (satAdd stop reservationBlock)

/-- The last sequence that may have been handed out when a process opens. -/
def openingLast (stateSequence compactionGeneration reserved : ℕ) : ℕ :=
  max (max stateSequence compactionGeneration) reserved

end Sequence

/-- The sequences of a process. -/
structure SequenceState where
  /-- The last sequence that has been handed out. -/
  sequence : ℕ
  compactionOutputGeneration : ℕ
  /-- The frontier of local durability. -/
  localDurable : ℕ
  nextTxnId : ℕ
  history : WalHistory
  deriving DecidableEq

/-- The sequences that a transaction takes: for its begin marker, for each operation and
    for its commit marker. -/
structure TxnSequencePlan where
  txnId : ℕ
  cfId : ℕ
  beginSeq : ℕ
  firstOpSeq : ℕ
  commitSeq : ℕ
  deriving DecidableEq, Repr

/-- Every sequence that the transaction took. -/
def TxnSequencePlan.range (plan : TxnSequencePlan) : SequenceRange := ⟨plan.beginSeq, plan.commitSeq⟩

/-- The sequences that the WAL frames and the memtable entries of the transaction name. -/
def TxnSequencePlan.names (plan : TxnSequencePlan) (opsCount : ℕ) : List ℕ :=
  plan.beginSeq :: (List.range opsCount).map (plan.firstOpSeq + ·) ++ [plan.commitSeq]

def exhausted : MidgeError := .resourceLimit "sequence space exhausted"

namespace SequenceState

def reservedThrough (state : SequenceState) : ℕ := state.history.ledger.seqReservedThrough

/-- Update the history. -/
def onHistory {α : Type} (x : Update MidgeError WalHistory α) : Update MidgeError SequenceState α :=
  x.zoom history fun history state => { state with history }

/-- Raise the reservation when a refill is due. A failed raise is tolerated while the old
    reservation still covers the allocation. -/
def refill (calls : ReserveCalls) (last reserved count : ℕ) :
    Update MidgeError SequenceState Unit :=
  match Sequence.refillDue last reserved count with
  | none => pure ()
  | some through => do
    match ← attempt (onHistory (WalHistory.reserve calls through)) with
    | .ok _ => pure ()
    | .error error =>
      match Sequence.allocate last reserved count with
      | some (.ready _) => pure ()
      | some (.needsReservation _) | none => throw error

/-- Allocate `count` consecutive sequences, the only way a sequence is handed out. -/
def allocateSequences (calls : ReserveCalls) (count : ℕ) :
    Update MidgeError SequenceState SequenceRange := do
  let state ← get
  let last := state.sequence
  let reserved := state.reservedThrough
  check (ensure (Sequence.allocate last reserved count).isSome exhausted)
  refill calls last reserved count
  let state ← get
  match Sequence.allocate last state.reservedThrough count with
  | some (.ready range) =>
    modify fun state => { state with sequence := range.last }
    return range
  | some (.needsReservation through) =>
    throw (.internal (s!"sequence allocation through {through} exceeds the WAL reservation " ++
      s!"{state.reservedThrough}"))
  | none => throw exhausted

/-- Give back the latest allocation, before any WAL byte has named one of its
    sequences. -/
def releaseSequences (range : SequenceRange) (state : SequenceState) : SequenceState :=
  if state.sequence = range.last then { state with sequence := range.first - 1 } else state

/-- Start the WAL epoch of this process: every sequence that an earlier process may have
    handed out counts as used. -/
def beginWalEpoch (calls : EpochCalls) (reserving : ReserveCalls) (epoch : ℕ) :
    Update MidgeError SequenceState (Option SealedSegment) := do
  let state ← get
  let last := Sequence.openingLast state.sequence state.compactionOutputGeneration
    state.reservedThrough
  let firstSeq ← check ((checkedAdd last 1).elim (.error exhausted) .ok)
  let through ← check
    ((checkedAdd last Sequence.reservationBlock).elim (.error exhausted) .ok)
  let sealing ← onHistory (WalHistory.startEpoch calls epoch firstSeq)
  onHistory (WalHistory.reserve reserving through)
  modify fun state => { state with
    sequence := last
    localDurable := max state.localDurable last }
  return sealing

/-- The next transaction id. -/
def nextTransactionId : Update MidgeError SequenceState ℕ := do
  let state ← get
  let next ← check <| (checkedAdd state.nextTxnId 1).elim
    (.error (.resourceLimit "transaction ID space exhausted")) .ok
  modify fun state => { state with nextTxnId := next }
  return next

/-- Give the sequences back when what follows their allocation fails. -/
def orRelease {α : Type} (range : SequenceRange) (x : Update MidgeError SequenceState α) :
    Update MidgeError SequenceState α := do
  match ← attempt x with
  | .ok a => return a
  | .error error =>
    modify (releaseSequences range)
    throw error

/-- Allocate the sequences of a transaction: the begin marker, one for each operation,
    and the commit marker. -/
def allocateTransactionSequences (calls : ReserveCalls) (opsCount cfId : ℕ) :
    Update MidgeError SequenceState TxnSequencePlan := do
  let count ← check <| (checkedAdd opsCount 2).elim
    (.error (.resourceLimit "transaction operation count exceeds sequence space")) .ok
  let range ← allocateSequences calls count
  let txnId ← orRelease range nextTransactionId
  return ⟨txnId, cfId, range.first, range.first + 1, range.last⟩

/-- Prepare the append of a transaction that has been validated: allocate its sequences,
    build its WAL batch, and check the lease. -/
def prepareTransactionAppend (calls : ReserveCalls) (build lease : Option MidgeError)
    (opsCount cfId : ℕ) : Update MidgeError SequenceState TxnSequencePlan := do
  let plan ← allocateTransactionSequences calls opsCount cfId
  orRelease plan.range (check (faultCheck build))
  orRelease plan.range (check (faultCheck lease))
  return plan

end SequenceState

end Midge
