import Midge.Wal.LedgerStoreSpec
import Midge.Wal.Sequence

/-!
# Sequences are used once

Processes open the same ledger one after another; each may crash at any moment, and the
next one finds the ledger as some write has left it (`Lifetimes.step`). Whatever they do,
the sequences of the transactions that reach the WAL or a memtable go up in the order of
their allocation, within a process and across crashes, and never leave the reservation
that was durable before (`Lifetimes.sequences_used_once`).

The invariant is that of `Lifetimes.Ordered`: a running process has handed out nothing
above its last sequence, and all that has been handed out is within the reservation. A
process starts above the reservation, so that it starts above all of it.
-/

namespace Midge

open List Update

/-! ## The reservation only rises -/

namespace LedgerJournal

variable {journal journal' : LedgerJournal}

/-- Whatever ledger the next process loads, its reservation is not lower. -/
theorem Survives.reserved_le {ledger : WalLedger} (h : journal.Survives ledger) :
    journal.ledger.seqReservedThrough ≤ ledger.seqReservedThrough := by
  rcases h with rfl | ⟨edit, -, happly⟩
  · exact le_rfl
  · exact (WalLedger.of_apply happly).reserved_le

theorem append_yields (fault : Option MidgeError) (edit : LedgerEdit) :
    (append fault edit).Yields journal
      (fun _ journal' => WalLedger.apply edit journal.ledger = .ok () journal'.ledger ∧
        journal'.failed = [])
      (fun _ journal' => journal' = journal ∨
        journal' = { journal with failed := journal.failed ++ [edit] }) := by
  rw [Update.Yields, append]
  cases happly : WalLedger.apply edit journal.ledger with
  | error refusal ledger => exact .inl rfl
  | ok u next =>
    cases fault with
    | none => exact ⟨rfl, rfl⟩
    | some error => exact .inr rfl

end LedgerJournal

/-- The reservation is at least `reserved`. -/
def WalHistory.Covers (reserved : ℕ) (history : WalHistory) : Prop :=
  reserved ≤ history.ledger.seqReservedThrough

namespace WalHistory

variable {history : WalHistory} {reserved : ℕ}

/-- An update that only raises the reservation. -/
def Raises {α : Type} (x : Update MidgeError WalHistory α) : Prop :=
  ∀ reserved history, Covers reserved history →
    x.Yields history (fun _ => Covers reserved) fun _ => Covers reserved

theorem raises_check {α : Type} (x : MidgeResult α) : Raises (Update.check x) :=
  fun _ _ h => yields_check (fun _ _ => h) fun _ _ => h

theorem raises_pure {α : Type} (a : α) : Raises (pure a) := fun _ _ h => Update.yields_pure h

theorem Raises.bind {α β : Type} {x : Update MidgeError WalHistory α}
    {f : α → Update MidgeError WalHistory β} (hx : Raises x) (hf : ∀ a, Raises (f a)) :
    Raises (x >>= f) := fun reserved history h =>
  yields_bind ((hx reserved history h).imp (fun a history' h' => hf a reserved history' h')
    fun _ _ h' => h')

theorem raises_commit (fault : Option MidgeError) (edit : LedgerEdit) :
    Raises (commit fault edit) := by
  intro reserved history h
  refine yields_zoom ((LedgerJournal.append_yields fault edit).imp ?_ ?_)
  · rintro _ journal' ⟨happly, -⟩
    exact le_trans h (WalLedger.of_apply happly).reserved_le
  · rintro _ journal' (rfl | rfl)
    exacts [h, h]

theorem raises_heal (fault : Option MidgeError) :
    Raises (onJournal (LedgerJournal.heal fault)) := fun _ _ h =>
  yields_zoom (yields_bind (yields_check (fun _ _ => h) fun _ _ => h))

theorem raises_run {α : Type} (fence : WriterFence) {x : Update MidgeError WalHistory α}
    (hx : Raises x) : Raises (fence.run x) := by
  intro reserved history h
  cases fence with
  | admits => exact hx reserved history h
  | refuses error => exact h
  | loses error =>
    exact yields_bind (yields_attempt ((hx reserved history h).imp
      (fun _ _ h' => h') fun _ _ h' => h'))

theorem raises_startEpoch (calls : EpochCalls) (epoch firstSeq : ℕ) :
    Raises (startEpoch calls epoch firstSeq) := by
  refine raises_run _ ((raises_heal _).bind fun _ => ?_)
  intro reserved history h
  refine yields_bind (yields_modify (yields_bind (yields_get ?_)))
  refine (raises_check calls.scan).bind (fun scan => ?_) reserved _ h
  cases scan.filter (0 < ·.recordCount) with
  | none =>
    refine Raises.bind (fun reserved history h => ?_) fun _ => raises_pure _
    refine yields_bind (yields_get ?_)
    dsimp only
    split_ifs
    · exact raises_pure _ reserved history h
    · exact (raises_check _).bind (fun _ => (raises_commit _ _).bind fun _ => raises_check _)
        reserved history h
  | some scan =>
    exact ((raises_check _).bind fun _ => (raises_check _).bind fun _ =>
      raises_commit _ _).bind fun _ => raises_pure _

theorem raises_reserve (calls : ReserveCalls) (through : ℕ) : Raises (reserve calls through) :=
  raises_run _ (raises_commit _ _)

end WalHistory

/-! ## What allocations hand out -/

variable {range : SequenceRange}

namespace Sequence

theorem checkedAdd_eq_some {a b sum : ℕ} : checkedAdd a b = some sum ↔
    a + b ≤ usizeMax ∧ sum = a + b := by
  rw [checkedAdd]
  split_ifs with h <;> simp [h, eq_comm]

/-- What is handed out follows the last sequence, is reserved, and is not the mark of a
    dropped family. -/
theorem of_allocate_ready {last reserved count : ℕ}
    (h : allocate last reserved count = some (.ready range)) :
    range = ⟨last + 1, last + max count 1⟩ ∧ range.last ≤ reserved ∧ range.last < usizeMax := by
  simp only [allocate, Option.bind_eq_bind, Option.bind_eq_some_iff, checkedAdd_eq_some] at h
  obtain ⟨first, ⟨-, rfl⟩, stop, ⟨hmax, rfl⟩, h⟩ := h
  split_ifs at h with hne hle
  · cases h
    exact ⟨rfl, hle, lt_of_le_of_ne hmax hne⟩
  · cases h

end Sequence

namespace SequenceState

variable {state : SequenceState} {reserved : ℕ}

/-- The last sequence is the same, and the reservation is at least `reserved`. -/
def Raised (state : SequenceState) (reserved : ℕ) (state' : SequenceState) : Prop :=
  state'.sequence = state.sequence ∧ reserved ≤ state'.reservedThrough

/-- An update of the history leaves the sequences as they are. -/
theorem onHistory_yields {α : Type} {x : Update MidgeError WalHistory α}
    (hx : WalHistory.Raises x) (hreserved : reserved ≤ state.reservedThrough) :
    (onHistory x).Yields state (fun _ => state.Raised reserved) fun _ => state.Raised reserved :=
  yields_zoom ((hx reserved state.history hreserved).imp (fun _ _ h => ⟨rfl, h⟩)
    fun _ _ h => ⟨rfl, h⟩)

theorem refill_yields (calls : ReserveCalls) (last reserved' count : ℕ)
    (hreserved : reserved ≤ state.reservedThrough) :
    (refill calls last reserved' count).Yields state (fun _ => state.Raised reserved)
      fun _ => state.Raised reserved := by
  rw [refill]
  cases Sequence.refillDue last reserved' count with
  | none => exact yields_pure ⟨rfl, hreserved⟩
  | some through =>
    refine yields_bind (yields_attempt
      ((onHistory_yields (WalHistory.raises_reserve calls through) hreserved).imp ?_ ?_))
    · exact fun _ _ h => yields_pure h
    · intro error state' h
      cases Sequence.allocate last reserved' count with
      | none => exact yields_throw h
      | some allocation =>
        cases allocation with
        | ready _ => exact yields_pure h
        | needsReservation _ => exact yields_throw h

/-- What is handed out follows the last sequence and is within the reservation. -/
theorem allocateSequences_yields (calls : ReserveCalls) (count : ℕ)
    (hreserved : reserved ≤ state.reservedThrough) :
    (allocateSequences calls count).Yields state
      (fun range state' => range = ⟨state.sequence + 1, state.sequence + max count 1⟩ ∧
        state'.sequence = range.last ∧ range.last ≤ state'.reservedThrough ∧
        range.last < usizeMax ∧ reserved ≤ state'.reservedThrough)
      fun _ => state.Raised reserved := by
  refine yields_bind (yields_get (yields_bind
    (yields_check (fun _ _ => ?_) fun _ _ => ⟨rfl, hreserved⟩)))
  refine yields_bind ((refill_yields calls _ _ count hreserved).imp ?_ fun _ _ h => h)
  rintro _ state' ⟨hsequence, hreserved'⟩
  refine yields_bind (yields_get ?_)
  cases hallocate : Sequence.allocate state.sequence state'.reservedThrough count with
  | none => exact yields_throw ⟨hsequence, hreserved'⟩
  | some allocation =>
    cases allocation with
    | needsReservation _ => exact yields_throw ⟨hsequence, hreserved'⟩
    | ready range =>
      obtain ⟨rfl, hle, hlt⟩ := Sequence.of_allocate_ready hallocate
      exact yields_bind (yields_modify (yields_pure
        ⟨rfl, rfl, hle, hlt, hreserved'⟩))

/-- A process starts above the reservation. -/
theorem beginWalEpoch_yields (calls : EpochCalls) (reserving : ReserveCalls) (epoch : ℕ)
    (hreserved : reserved ≤ state.reservedThrough) :
    (beginWalEpoch calls reserving epoch).Yields state
      (fun _ state' => reserved ≤ state'.sequence ∧ reserved ≤ state'.reservedThrough)
      (fun _ state' => reserved ≤ state'.reservedThrough) := by
  unfold beginWalEpoch
  generalize Sequence.reservationBlock = block
  refine yields_bind (yields_get (yields_bind
    (yields_check (fun firstSeq _ => ?_) fun _ _ => hreserved)))
  refine yields_bind (yields_check (fun through _ => ?_) fun _ _ => hreserved)
  refine yields_bind ((onHistory_yields (WalHistory.raises_startEpoch calls epoch firstSeq)
    hreserved).imp ?_ fun _ _ h => h.2)
  rintro sealing state₁ ⟨-, hreserved₁⟩
  refine yields_bind ((onHistory_yields (WalHistory.raises_reserve reserving through)
    hreserved₁).imp ?_ fun _ _ h => h.2)
  rintro _ state₂ ⟨-, hreserved₂⟩
  refine yields_bind (yields_modify (yields_pure ⟨?_, hreserved₂⟩))
  exact hreserved.trans (le_max_right _ _)

end SequenceState

/-! ## Lifetimes -/

/-- Sequences that have been handed out to a transaction. -/
structure Transaction where
  range : SequenceRange
  /-- The reservation that was durable when a WAL frame or a memtable entry first named
      one of the sequences; `none` before. -/
  durable : Option ℕ := none
  deriving DecidableEq

/-- The processes that open a database one after another. -/
structure Lifetimes where
  /-- The state of the last process; the journal of its history is on disk. -/
  state : SequenceState
  running : Bool := false
  /-- In the order of allocation, those that have not been given back and are not lost. -/
  transactions : List Transaction := []
  deriving DecidableEq

/-- What may happen. -/
inductive LifetimeEvent
  /-- Recovery or the process commits an edit of the ledger. -/
  | edit (fault : Option MidgeError) (edit : LedgerEdit)
  | beginWalEpoch (calls : EpochCalls) (reserving : ReserveCalls) (epoch : ℕ)
  | allocateSequences (calls : ReserveCalls) (count : ℕ)
  | nextTransactionId
  | releaseSequences (range : SequenceRange)
  /-- A WAL frame or a memtable entry names sequences of the transaction. -/
  | use (range : SequenceRange)
  /-- The process ends. The next one loads the ledger, with one of the edits that had
      failed or without, and recovery sees some sequence and some generation. -/
  | crash (kept : Option LedgerEdit) (sequence generation : ℕ)

/-- The ledger that the next process loads. -/
def LedgerJournal.load (journal : LedgerJournal) (kept : Option LedgerEdit) : WalLedger :=
  match kept.filter (· ∈ journal.failed) with
  | none => journal.ledger
  | some edit =>
    match WalLedger.apply edit journal.ledger with
    | .ok _ ledger => ledger
    | .error _ _ => journal.ledger

namespace Lifetimes

variable (system : Lifetimes)

/-- The transaction still has the sequences to itself: nothing names them. -/
def Holds (range : SequenceRange) : Prop :=
  system.running = true ∧ ⟨range, none⟩ ∈ system.transactions

instance (range : SequenceRange) : Decidable (system.Holds range) := by
  unfold Holds
  infer_instance

/-- Let an update of the state happen. -/
def update {α : Type} (x : Update MidgeError SequenceState α) : Lifetimes :=
  { system with state := x.after system.state }

/-- Start the epoch of the process. -/
def beginEpoch (calls : EpochCalls) (reserving : ReserveCalls) (epoch : ℕ) : Lifetimes :=
  match SequenceState.beginWalEpoch calls reserving epoch system.state with
  | .ok _ state => { system with state, running := true }
  | .error _ state => { system with state }

/-- Allocate sequences for a transaction. -/
def allocate (calls : ReserveCalls) (count : ℕ) : Lifetimes :=
  match SequenceState.allocateSequences calls count system.state with
  | .ok range state =>
    { system with state, transactions := system.transactions ++ [⟨range, none⟩] }
  | .error _ state => { system with state }

/-- Give the sequences of a transaction back. -/
def release (range : SequenceRange) : Lifetimes :=
  { system with
    state := system.state.releaseSequences range
    transactions := system.transactions.filter (·.range ≠ range) }

/-- Note that the sequences of a transaction are named, under the reservation that is
    durable now. -/
def use (range : SequenceRange) : Lifetimes :=
  { system with transactions := system.transactions.map fun txn =>
      if txn = ⟨range, none⟩ then { txn with durable := some system.state.reservedThrough }
      else txn }

/-- What the next process finds. -/
def crash (kept : Option LedgerEdit) (sequence generation : ℕ) : Lifetimes where
  state := { system.state with
    sequence
    compactionOutputGeneration := generation
    history := { system.state.history with
      journal := ⟨system.state.history.journal.load kept, []⟩ } }
  running := false
  transactions := system.transactions.filter (·.durable.isSome)

/-- What happens on an event; nothing when there is no process that could do it. -/
def step (system : Lifetimes) : LifetimeEvent → Lifetimes
  | .edit fault edit => system.update (SequenceState.onHistory (WalHistory.commit fault edit))
  | .beginWalEpoch calls reserving epoch =>
    if system.running then system else system.beginEpoch calls reserving epoch
  | .allocateSequences calls count => if system.running then system.allocate calls count else system
  | .nextTransactionId => system.update SequenceState.nextTransactionId
  | .releaseSequences range => if system.Holds range then system.release range else system
  | .use range => if system.Holds range then system.use range else system
  | .crash kept sequence generation => system.crash kept sequence generation

/-- The events one after the other. -/
def run (events : List LifetimeEvent) : Lifetimes := events.foldl step system

end Lifetimes

/-! ## The order of allocation -/

theorem LedgerJournal.survives_load (journal : LedgerJournal) (kept : Option LedgerEdit) :
    journal.Survives (journal.load kept) := by
  rw [load]
  cases hkept : kept.filter (· ∈ journal.failed) with
  | none => exact .inl rfl
  | some edit =>
    have hmem := (Option.filter_eq_some_iff.1 hkept).2
    simp only
    cases happly : WalLedger.apply edit journal.ledger with
    | ok u ledger => exact .inr ⟨edit, of_decide_eq_true hmem, happly⟩
    | error _ _ => exact .inl rfl

/-- What is known of a transaction under a reservation. -/
structure Transaction.Within (reserved : ℕ) (txn : Transaction) : Prop where
  nonempty : txn.range.first ≤ txn.range.last
  positive : 0 < txn.range.first
  live : txn.range.last < usizeMax
  covered : txn.range.last ≤ reserved
  durable : ∀ durable ∈ txn.durable, txn.range.last ≤ durable ∧ durable ≤ reserved

theorem Transaction.Within.mono {reserved reserved' : ℕ} {txn : Transaction}
    (h : txn.Within reserved) (hle : reserved ≤ reserved') : txn.Within reserved' :=
  ⟨h.nonempty, h.positive, h.live, h.covered.trans hle,
    fun durable hdurable => ⟨(h.durable durable hdurable).1, (h.durable durable hdurable).2.trans hle⟩⟩

variable {state : SequenceState}

namespace Lifetimes

/-- The transactions are in the order of their sequences and within the reservation, and
    a running process is past all of them. -/
structure Ordered (system : Lifetimes) : Prop where
  sorted : system.transactions.Pairwise fun txn txn' => txn.range.last < txn'.range.first
  within : ∀ txn ∈ system.transactions, txn.Within system.state.reservedThrough
  past : system.running = true → ∀ txn ∈ system.transactions,
    txn.range.last ≤ system.state.sequence

variable {system : Lifetimes}

section

variable (h : system.Ordered)

include h

/-- A change that keeps the last sequence and does not lower the reservation. -/
theorem Ordered.of_state {running : Bool}
    (hreserved : system.state.reservedThrough ≤ state.reservedThrough)
    (hpast : running = true → ∀ txn ∈ system.transactions, txn.range.last ≤ state.sequence) :
    Ordered { system with state, running } :=
  ⟨h.sorted, fun txn htxn => (h.within txn htxn).mono hreserved, hpast⟩

theorem Ordered.update {α : Type} {x : Update MidgeError SequenceState α}
    (hx : x.Yields system.state (fun _ => system.state.Raised system.state.reservedThrough)
      fun _ => system.state.Raised system.state.reservedThrough) : (system.update x).Ordered := by
  obtain ⟨hsequence, hreserved⟩ :=
    Update.Yields.after (P := system.state.Raised system.state.reservedThrough) hx
  exact h.of_state hreserved fun hrunning txn htxn => (h.past hrunning txn htxn).trans hsequence.ge

theorem Ordered.beginEpoch (hrunning : system.running = false) (calls : EpochCalls)
    (reserving : ReserveCalls) (epoch : ℕ) :
    (system.beginEpoch calls reserving epoch).Ordered := by
  have hyields := @SequenceState.beginWalEpoch_yields system.state _ calls reserving epoch le_rfl
  rw [Update.Yields] at hyields
  rw [Lifetimes.beginEpoch]
  cases hbegin : SequenceState.beginWalEpoch calls reserving epoch system.state with
  | ok sealing state =>
    rw [hbegin] at hyields
    exact h.of_state hyields.2 fun _ txn htxn => (h.within txn htxn).covered.trans hyields.1
  | error _ state =>
    rw [hbegin] at hyields
    exact h.of_state hyields fun hrunning' => absurd (hrunning.symm.trans hrunning') (by decide)

/-- What is allocated follows everything before it. -/
theorem Ordered.allocate (hrunning : system.running = true) (calls : ReserveCalls) (count : ℕ) :
    (system.allocate calls count).Ordered := by
  have hyields := @SequenceState.allocateSequences_yields system.state _ calls count le_rfl
  rw [Update.Yields] at hyields
  rw [Lifetimes.allocate]
  cases hallocate : SequenceState.allocateSequences calls count system.state with
  | error _ state =>
    rw [hallocate] at hyields
    exact h.of_state hyields.2 fun _ txn htxn => (h.past hrunning txn htxn).trans hyields.1.ge
  | ok range state =>
    rw [hallocate] at hyields
    obtain ⟨rfl, hsequence, hlast, hlive, hreserved⟩ := hyields
    refine ⟨pairwise_append.2 ⟨h.sorted, pairwise_singleton _ _, ?_⟩, ?_, fun _ => ?_⟩
    · intro txn htxn txn' htxn'
      rw [mem_singleton.1 htxn']
      exact Nat.lt_succ_of_le (h.past hrunning txn htxn)
    · intro txn htxn
      rcases mem_append.1 htxn with htxn | htxn
      · exact (h.within txn htxn).mono hreserved
      · rw [mem_singleton.1 htxn]
        refine ⟨?_, Nat.succ_pos _, hlive, hlast, by simp⟩
        exact Nat.add_le_add_left (le_max_right _ _) _
    · intro txn htxn
      rcases mem_append.1 htxn with htxn | htxn
      · refine (h.past hrunning txn htxn).trans ?_
        rw [hsequence]
        exact Nat.le_add_right _ _
      · rw [mem_singleton.1 htxn]
        exact hsequence.ge

/-- Only the latest allocation takes the process back, to the one before it. -/
theorem Ordered.release (hholds : system.Holds range) :
    (system.release range).Ordered := by
  obtain ⟨hrunning, hmem⟩ := hholds
  refine ⟨h.sorted.filter _, fun txn htxn => ?_, fun _ txn htxn => ?_⟩
  · refine (h.within txn (mem_of_mem_filter htxn)).mono (le_of_eq ?_)
    rw [Lifetimes.release, SequenceState.releaseSequences]
    split_ifs <;> rfl
  · obtain ⟨htxn, hne⟩ := mem_filter.1 htxn
    have hpast := h.past hrunning txn htxn
    rw [Lifetimes.release, SequenceState.releaseSequences]
    split_ifs with hlast
    · -- The transaction is before the one that is given back, or after it.
      have hrange : txn ≠ ⟨range, none⟩ := by
        rintro rfl
        simp at hne
      have htotal : system.transactions.Pairwise fun a b =>
          a.range.last < b.range.first ∨ b.range.last < a.range.first := h.sorted.imp .inl
      have : Std.Symm fun a b : Transaction =>
          a.range.last < b.range.first ∨ b.range.last < a.range.first := ⟨fun _ _ => Or.symm⟩
      rcases htotal.forall htxn hmem hrange with hbefore | hafter
      · exact Nat.le_sub_one_of_lt hbefore
      · have hnonempty := (h.within txn htxn).nonempty
        rw [hlast] at hpast
        exact absurd (hafter.trans_le (hnonempty.trans hpast)) (lt_irrefl _)
    · exact hpast

theorem Ordered.use (range : SequenceRange) : (system.use range).Ordered := by
  have hrange : ∀ txn : Transaction, (if txn = ⟨range, none⟩ then
      { txn with durable := some system.state.reservedThrough } else txn).range = txn.range := by
    intro txn
    split_ifs <;> rfl
  refine ⟨?_, ?_, fun hrunning => ?_⟩
  · refine pairwise_map.2 (h.sorted.imp fun {txn txn'} hlt => ?_)
    rw [hrange, hrange]
    exact hlt
  · intro txn htxn
    obtain ⟨txn, hmem, rfl⟩ := mem_map.1 htxn
    have hwithin := h.within txn hmem
    split_ifs
    · refine ⟨hwithin.nonempty, hwithin.positive, hwithin.live, hwithin.covered, ?_⟩
      rintro _ ⟨⟩
      exact ⟨hwithin.covered, le_rfl⟩
    · exact hwithin
  · intro txn htxn
    obtain ⟨txn, hmem, rfl⟩ := mem_map.1 htxn
    rw [hrange]
    exact h.past hrunning txn hmem

theorem Ordered.crash (kept : Option LedgerEdit) (sequence generation : ℕ) :
    (system.crash kept sequence generation).Ordered := by
  refine ⟨h.sorted.filter _, fun txn htxn => ?_, nofun⟩
  exact (h.within txn (mem_of_mem_filter htxn)).mono
    (system.state.history.journal.survives_load kept).reserved_le

end

theorem nextTransactionId_yields (state : SequenceState) :
    SequenceState.nextTransactionId.Yields state (fun _ => state.Raised state.reservedThrough)
      fun _ => state.Raised state.reservedThrough :=
  yields_bind (yields_get (yields_bind (yields_check
    (fun _ _ => yields_bind (yields_modify (yields_pure ⟨rfl, le_rfl⟩)))
    fun _ _ => ⟨rfl, le_rfl⟩)))

/-- Every event keeps the order. -/
theorem Ordered.step (h : system.Ordered) (event : LifetimeEvent) : (system.step event).Ordered := by
  cases event with
  | edit fault edit =>
    exact h.update (SequenceState.onHistory_yields (WalHistory.raises_commit fault edit) le_rfl)
  | beginWalEpoch calls reserving epoch =>
    rw [Lifetimes.step]
    split_ifs with hrunning
    · exact h
    · exact h.beginEpoch (Bool.eq_false_of_not_eq_true hrunning) calls reserving epoch
  | allocateSequences calls count =>
    rw [Lifetimes.step]
    split_ifs with hrunning
    · exact h.allocate hrunning calls count
    · exact h
  | nextTransactionId => exact h.update (nextTransactionId_yields system.state)
  | releaseSequences range =>
    rw [Lifetimes.step]
    split_ifs with hholds
    · exact h.release hholds
    · exact h
  | use range =>
    rw [Lifetimes.step]
    split_ifs
    · exact h.use range
    · exact h
  | crash kept sequence generation => exact h.crash kept sequence generation

theorem Ordered.run (h : system.Ordered) (events : List LifetimeEvent) :
    (system.run events).Ordered := by
  induction events generalizing system with
  | nil => exact h
  | cons event events ih => exact ih (h.step event)

/-- Whatever processes do and whenever they crash, the sequences that the WAL frames and
    memtable entries of transactions name go up in the order of allocation, each lies
    within a reservation that was durable before it was named and is durable since, and
    none is the mark of a dropped family. -/
theorem sequences_used_once (state : SequenceState) (events : List LifetimeEvent) :
    ((Lifetimes.run ⟨state, false, []⟩ events).transactions.filter (·.durable.isSome)).Pairwise
        (fun txn txn' => ∀ seq ∈ txn.range, ∀ seq' ∈ txn'.range, seq < seq') ∧
      ∀ txn ∈ (Lifetimes.run ⟨state, false, []⟩ events).transactions, ∀ seq ∈ txn.range,
        seq ≠ usizeMax ∧ ∀ durable ∈ txn.durable, seq ≤ durable ∧ ∀ ledger,
          (Lifetimes.run ⟨state, false, []⟩ events).state.history.journal.Survives ledger →
            durable ≤ ledger.seqReservedThrough := by
  have hordered : (Lifetimes.run ⟨state, false, []⟩ events).Ordered :=
    Ordered.run ⟨.nil, by simp, by simp⟩ events
  constructor
  · refine (hordered.sorted.filter _).imp fun hlt seq hseq seq' hseq' => ?_
    exact hseq.2.trans_lt (hlt.trans_le hseq'.1)
  · intro txn htxn seq hseq
    have hwithin := hordered.within txn htxn
    refine ⟨(hseq.2.trans_lt hwithin.live).ne, fun durable hdurable => ?_⟩
    obtain ⟨hle, hreserved⟩ := hwithin.durable durable hdurable
    exact ⟨hseq.2.trans hle, fun ledger hledger => hreserved.trans hledger.reserved_le⟩

/-! ## Preparing a transaction -/

/-- The system comes to have the state and the transactions. -/
def Reaches (system : Lifetimes) (state : SequenceState) (transactions : List Transaction) : Prop :=
  ∃ events, system.run events = { system with state, transactions }

theorem Reaches.refl : system.Reaches system.state system.transactions := ⟨[], rfl⟩

section

variable {state' : SequenceState} {transactions transactions' : List Transaction}

/-- An event after others. -/
theorem Reaches.step (h : system.Reaches state transactions) (event : LifetimeEvent)
    (hevent : Lifetimes.step { system with state, transactions } event =
      { system with state := state', transactions := transactions' }) :
    system.Reaches state' transactions' := by
  obtain ⟨events, hrun⟩ := h
  exact ⟨events ++ [event],
    (List.foldl_concat ..).trans ((congrArg (Lifetimes.step · event) hrun).trans hevent)⟩

theorem nextTransactionId_reaches (h : system.Reaches state transactions) :
    SequenceState.nextTransactionId.Yields state (fun _ => (system.Reaches · transactions))
      fun _ => (system.Reaches · transactions) := by
  have hstep := h.step .nextTransactionId rfl
  rw [Update.after] at hstep
  rw [Update.Yields]
  split at hstep <;> simp [*]

variable (h : system.Ordered) (hrunning : system.running = true)

include hrunning

/-- An allocation is an event, or fails as one. -/
theorem allocateSequences_reaches (calls : ReserveCalls) (count : ℕ) :
    (SequenceState.allocateSequences calls count).Yields system.state
      (fun range state => range = ⟨system.state.sequence + 1, system.state.sequence + max count 1⟩ ∧
        system.Reaches state (system.transactions ++ [⟨range, none⟩]))
      fun _ state => system.Reaches state system.transactions := by
  have hyields := @SequenceState.allocateSequences_yields system.state _ calls count le_rfl
  rw [Update.Yields] at hyields ⊢
  cases hallocate : SequenceState.allocateSequences calls count system.state with
  | ok range state =>
    rw [hallocate] at hyields
    refine ⟨hyields.1, Reaches.refl.step (.allocateSequences calls count) ?_⟩
    simp [Lifetimes.step, hrunning, Lifetimes.allocate, hallocate]
  | error error state =>
    refine Reaches.refl.step (.allocateSequences calls count) ?_
    simp [Lifetimes.step, hrunning, Lifetimes.allocate, hallocate]

include h

/-- The latest allocation is given back. -/
theorem Reaches.release
    (hreaches : system.Reaches state (system.transactions ++ [⟨range, none⟩])) :
    system.Reaches (state.releaseSequences range) system.transactions := by
  refine hreaches.step (.releaseSequences range) ?_
  obtain ⟨events, hrun⟩ := hreaches
  have hordered := h.run events
  rw [hrun] at hordered
  -- No transaction before it has its sequences.
  have hother : ∀ txn ∈ system.transactions, decide (txn.range ≠ range) = true := by
    intro txn htxn
    have hlt := (pairwise_append.1 hordered.sorted).2.2 txn htxn _ (.head _)
    have hle := (hordered.within txn (mem_append_left _ htxn)).nonempty
    refine decide_eq_true ?_
    rintro rfl
    exact absurd hlt (not_lt.2 hle)
  simp only [Lifetimes.step, Lifetimes.release, filter_append, filter_eq_self.2 hother]
  simp [Holds, hrunning]

/-- What follows an allocation, and gives it back when it fails. -/
theorem orRelease_reaches {α : Type} {x : Update MidgeError SequenceState α}
    {Q : α → SequenceState → Prop} (hx : x.Yields state Q fun _ state' =>
      system.Reaches state' (system.transactions ++ [⟨range, none⟩])) :
    (SequenceState.orRelease range x).Yields state Q
      fun _ state' => system.Reaches state' system.transactions := by
  refine yields_bind (yields_attempt (hx.imp (fun _ _ hQ => yields_pure hQ) ?_))
  intro error state' hreaches
  exact yields_bind (yields_modify (yields_throw (Reaches.release h hrunning hreaches)))

end

/-- Whatever processes have done before, preparing a transaction is an allocation, that is
    given back when something fails after it. The transaction names every sequence of the
    allocation, once and in order. -/
theorem prepare_reaches (state : SequenceState) (events : List LifetimeEvent)
    (hrunning : (run ⟨state, false, []⟩ events).running = true) (calls : ReserveCalls)
    (build lease : Option MidgeError) (opsCount cfId : ℕ) :
    let system := run ⟨state, false, []⟩ events
    (SequenceState.prepareTransactionAppend calls build lease opsCount cfId).Yields system.state
      (fun plan state => system.Reaches state (system.transactions ++ [⟨plan.range, none⟩]) ∧
        plan.names opsCount = List.range' plan.range.first (opsCount + 2) ∧
        plan.range.last = plan.range.first + (opsCount + 1))
      fun _ state => system.Reaches state system.transactions := by
  intro system
  have h : system.Ordered := Ordered.run ⟨.nil, by simp, by simp⟩ events
  refine yields_bind (yields_bind (yields_check (fun count hcount => ?_) fun _ _ => .refl))
  obtain ⟨sum, hadd, rfl⟩ : ∃ sum, checkedAdd opsCount 2 = some sum ∧ sum = count := by
    cases hadd : checkedAdd opsCount 2 <;> simp_all
  obtain ⟨-, rfl⟩ := Sequence.checkedAdd_eq_some.1 hadd
  refine yields_bind ((allocateSequences_reaches hrunning calls _).imp ?_ fun _ _ h => h)
  rintro range state₁ ⟨rfl, hreaches⟩
  refine yields_bind (orRelease_reaches h hrunning
    ((nextTransactionId_reaches hreaches).imp ?_ fun _ _ h => h))
  intro txnId state₂ hreaches₂
  refine yields_pure (yields_bind (orRelease_reaches h hrunning
    (yields_check (fun _ _ => ?_) fun _ _ => hreaches₂)))
  refine yields_bind (orRelease_reaches h hrunning (yields_check (fun _ _ => ?_) fun _ _ => hreaches₂))
  have hlast : system.state.sequence + max (opsCount + 2) 1 =
      system.state.sequence + 1 + (opsCount + 1) := by omega
  rw [hlast] at hreaches₂ ⊢
  have hnames : ∀ b, TxnSequencePlan.names ⟨txnId, cfId, b, b + 1, b + (opsCount + 1)⟩ opsCount =
      List.range' b (opsCount + 2) := fun b => by
    rw [TxnSequencePlan.names, range'_1_concat, range'_succ, range'_eq_map_range]
  exact yields_pure ⟨hreaches₂, hnames _, rfl⟩

theorem prepare_reaches_first : ∃ system : Lifetimes, system.running = true ∧
    (SequenceState.prepareTransactionAppend {} none none 1 0).Yields system.state
      (fun plan _ => plan.names 1 = List.range' plan.range.first 3) fun _ _ => True :=
  ⟨_, rfl, (prepare_reaches ⟨0, 0, 0, 0, ⟨⟨firstLedger, []⟩, 0⟩⟩
    [.beginWalEpoch { scan := .ok none } {} 1] rfl {} none none 1 0).imp (fun _ _ h => h.2.1)
    fun _ _ _ => trivial⟩

end Lifetimes

/-! ## The journal on disk -/

section Disk

variable {json : JsonCodec} {acked : List LedgerEdit} {world : StoreWorld} {journal : LedgerJournal}

end Disk

end Midge
