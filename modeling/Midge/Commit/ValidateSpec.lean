import Midge.Commit.Applied

/-!
# The verdict of a validation

Validation looks at the staged transactions, at a proof or at the latest state, and at
the recent range deletions. Its verdict is one about a single state nonetheless, the one
that there will be once the staged transactions have been applied: it is an error if and
only if the transaction conflicts with that state (`Conflicts`).

`ValidationSnapshots.KnowsKey` and `KnowsRange` say that what validation is told of a key
or a range is right about a state. They hold of the latest state without a proof, of a
proof that was read at the same applied sequence, and, with the overlay, of the state
after the staged transactions. The rest of the validation is the same in all cases.
-/

namespace Midge

open List Option TransactionApplyOp ValidationSnapshots

/-! ## Conflicts -/

namespace TransactionOp

/-- The operation writes the key. -/
def Writes (cfId : ℕ) (k : Key) : TransactionOp → Prop
  | .put family key _ _ _ | .delete family key => family = cfId ∧ key = k
  | .deleteRange family startKey endKey => family = cfId ∧ startKey ≤ k ∧ k < endKey

instance (cfId : ℕ) (k : Key) : DecidablePred (Writes cfId k) := fun op => by
  cases op <;> exact inferInstanceAs (Decidable (_ ∧ _))

/-- The operation leaves a value. -/
def isPut : TransactionOp → Bool
  | .put .. => true
  | _ => false

end TransactionOp

namespace RuntimeState

variable (state : RuntimeState)

/-- Something newer than `start` touches the key. -/
def Changed (start cfId : ℕ) (k : Key) : Prop := ∃ seq, start < seq ∧ state.HasSeqAt cfId k seq

/-- The key has a value that has not expired. -/
def ExistsAt (cfId : ℕ) (k : Key) : Prop :=
  ∃ expiration, state.LiveAt cfId k expiration ∧
    isExpiredAt expiration state.observedTimeMillis = false

/-- The key is there after the operations: the last one that writes it decides, and the
    state if there is none. -/
def PresentAfter (ops : List TransactionOp) (cfId : ℕ) (k : Key) : Prop :=
  (ops.reverse.find? (TransactionOp.Writes cfId k)).elim (state.ExistsAt cfId k)
    (·.isPut)

end RuntimeState

/-- The transaction conflicts with the state: it writes a key that has been touched after
    it began, and its policy is to abort then, or it asserts one, or an insert finds its
    key after the operations before it. -/
def Conflicts (state : RuntimeState) (start : ℕ) (validation : TransactionValidation) : Prop :=
  (validation.conflictPolicy = .abortOnWriteConflict ∧
    ∃ op ∈ validation.ops, ∃ cfId k, op.Writes cfId k ∧ state.Changed start cfId k) ∨
  (∃ assertion ∈ validation.assertions, state.Changed start assertion.cfId assertion.key) ∨
  ∃ before cfId key value ttlSeconds after,
    validation.ops = before ++ .put cfId key value ttlSeconds true :: after ∧
      state.PresentAfter before cfId key

/-! ## What validation is told -/

namespace ValidationSnapshots

variable (snapshots : ValidationSnapshots) (state : RuntimeState) (start cfId : ℕ)

/-- What is told of the key is right about the state. -/
structure KnowsKey (k : Key) : Prop where
  latest : ∃ latest, snapshots.latestKeySequence cfId k = .ok latest ∧
    ((∃ seq ∈ latest, start < seq) ↔ state.Changed start cfId k)
  «exists» : ∃ found, snapshots.keyExists cfId k = .ok found ∧ (found ↔ state.ExistsAt cfId k)

/-- What is told of the range is right about the state. -/
def KnowsRange (startKey endKey : Key) : Prop :=
  ∃ o, snapshots.anyRangeSequenceAfter cfId startKey endKey start = .ok o ∧
    (o.isSome ↔ ∃ k, (startKey ≤ k ∧ k < endKey) ∧ state.Changed start cfId k)

end ValidationSnapshots

/-- The remembered range deletions newer than `start` are in the data of the second state.
    A snapshot at `start` keeps what has been written after it. -/
structure RuntimeState.RecentBacked (state state' : RuntimeState) (start : ℕ) : Prop where
  proper : ∀ entry ∈ state.recentDeleteRanges, entry.startKey < entry.endKey
  changed : ∀ entry ∈ state.recentDeleteRanges, start < entry.sequence →
    (state.columnFamilies entry.cfId).isSome → ∀ k, entry.startKey ≤ k → k < entry.endKey →
      state'.Changed start entry.cfId k

/-! ## The verdict -/

variable {startKey endKey : Key} {validation : TransactionValidation}

section Verdict

variable {snapshots : ValidationSnapshots} {state' : RuntimeState} {start cfId : ℕ} {k : Key}

/-- A key passes if nothing newer touches it. -/
theorem ensureKeyUnchanged_iff (hkey : snapshots.KnowsKey state' start cfId k)
    (hrecent : snapshots.state.RecentBacked state' start)
    (hfamily : (snapshots.state.columnFamilies cfId).isSome) (kind : String) :
    snapshots.ensureKeyUnchanged kind start cfId k = .ok () ↔ ¬state'.Changed start cfId k := by
  obtain ⟨latest, hlatest, hiff⟩ := hkey.latest
  rw [ensureKeyUnchanged, hlatest, ← hiff]
  simp only [bind, Except.bind]
  cases hnewer : latest.filter (start < ·) with
  | some seq =>
    obtain ⟨hseq, hlt⟩ := filter_eq_some_iff.1 hnewer
    exact iff_of_false (by simp) (not_not_intro ⟨seq, hseq, of_decide_eq_true hlt⟩)
  | none =>
    have hnone : ¬∃ seq ∈ latest, start < seq := by
      rintro ⟨seq, hseq, hlt⟩
      rw [filter_eq_none_iff] at hnewer
      exact hnewer seq hseq (decide_eq_true hlt)
    refine iff_of_true ?_ hnone
    cases hcover : (snapshots.state.latestCoveringDeleteRangeSequence cfId k).filter
        (start < ·) with
    | none => rfl
    | some seq =>
      obtain ⟨hseq, hlt⟩ := filter_eq_some_iff.1 hcover
      rw [RuntimeState.latestCoveringDeleteRangeSequence, map_eq_some_iff] at hseq
      obtain ⟨entry, hfind, rfl⟩ := hseq
      have hentry := find?_some hfind
      rw [decide_eq_true_eq] at hentry
      obtain ⟨rfl, hstart, hend⟩ := hentry
      have hmem := mem_reverse.1 (mem_of_find?_eq_some hfind)
      exact absurd (hiff.2 (hrecent.changed entry hmem (of_decide_eq_true hlt) hfamily k hstart
        hend)) hnone

/-- A range passes if nothing newer touches it. -/
theorem ensureRangeUnchanged_iff (hlt : startKey < endKey)
    (hrange : snapshots.KnowsRange state' start cfId startKey endKey)
    (hrecent : snapshots.state.RecentBacked state' start)
    (hfamily : (snapshots.state.columnFamilies cfId).isSome) :
    snapshots.ensureRangeUnchanged start cfId startKey endKey = .ok () ↔
      ¬∃ k, (startKey ≤ k ∧ k < endKey) ∧ state'.Changed start cfId k := by
  obtain ⟨o, ho, hiff⟩ := hrange
  rw [ensureRangeUnchanged, ho, ← hiff]
  simp only [bind, Except.bind]
  cases o with
  | some seq => exact iff_of_false (by simp) (by simp)
  | none =>
    refine iff_of_true ?_ (by simp)
    cases hover : (snapshots.state.latestOverlappingDeleteRangeSequence cfId startKey
        endKey).filter (start < ·) with
    | none => rfl
    | some seq =>
      obtain ⟨hseq, hnewer⟩ := filter_eq_some_iff.1 hover
      rw [RuntimeState.latestOverlappingDeleteRangeSequence, map_eq_some_iff] at hseq
      obtain ⟨entry, hfind, rfl⟩ := hseq
      have hentry := find?_some hfind
      rw [decide_eq_true_eq] at hentry
      obtain ⟨rfl, hoverlaps⟩ := hentry
      have hmem := mem_reverse.1 (mem_of_find?_eq_some hfind)
      obtain ⟨k, hk, hcovers⟩ := (@overlaps_iff startKey endKey hlt
        ⟨entry.startKey, entry.endKey, entry.sequence⟩ (hrecent.proper entry hmem)).1 hoverlaps
      have hchanged := hrecent.changed entry hmem (of_decide_eq_true hnewer) hfamily k hcovers.1
        hcovers.2
      simpa using hiff.2 ⟨k, hk, hchanged⟩

/-- What the validation of an operation has to know. -/
def ValidationSnapshots.KnowsOp (snapshots : ValidationSnapshots) (state' : RuntimeState)
    (start : ℕ) : TransactionOp → Prop
  | .put cfId key _ _ _ | .delete cfId key => snapshots.KnowsKey state' start cfId key
  | .deleteRange cfId startKey endKey => snapshots.KnowsRange state' start cfId startKey endKey

/-- The operations pass if nothing newer touches what they write. -/
theorem ensureNoWriteConflicts_iff (hrecent : snapshots.state.RecentBacked state' start)
    {ops : List TransactionOp} (hops : ∀ op ∈ ops, snapshots.KnowsOp state' start op)
    (hproper : ∀ op ∈ ops, op.Proper)
    (hfamily : ∀ op ∈ ops, (snapshots.state.columnFamilies op.cfId).isSome)
    {checked : List (ℕ × Key)}
    (hchecked : ∀ p ∈ checked, ¬state'.Changed start p.1 p.2) :
    snapshots.ensureNoWriteConflicts start checked ops = .ok () ↔
      ¬∃ op ∈ ops, ∃ cfId k, op.Writes cfId k ∧ state'.Changed start cfId k := by
  induction ops generalizing checked with
  | nil => simp [ensureNoWriteConflicts]
  | cons op ops ih =>
    rw [forall_mem_cons] at hops hproper hfamily
    have ih := fun c hc => @ih hops.2 hproper.2 hfamily.2 c hc
    -- A single key is looked at, unless it is among those that have passed.
    have hpoint : ∀ cf key, (∀ cfId k, op.Writes cfId k ↔ cf = cfId ∧ key = k) →
        snapshots.KnowsKey state' start cf key → (snapshots.state.columnFamilies cf).isSome →
        ((if (cf, key) ∈ checked then snapshots.ensureNoWriteConflicts start checked ops
          else do
            snapshots.ensureKeyUnchanged "key" start cf key
            snapshots.ensureNoWriteConflicts start ((cf, key) :: checked) ops) = .ok () ↔
          ¬∃ op' ∈ op :: ops, ∃ cfId k, op'.Writes cfId k ∧ state'.Changed start cfId k) := by
      intro cf key hwrites hkey hcf
      have hhead : (∃ cfId k, op.Writes cfId k ∧ state'.Changed start cfId k) ↔
          state'.Changed start cf key := by
        simp only [hwrites]
        constructor
        · rintro ⟨cfId, k, ⟨rfl, rfl⟩, h⟩
          exact h
        · exact fun h => ⟨cf, key, ⟨rfl, rfl⟩, h⟩
      simp only [mem_cons, exists_eq_or_imp, hhead]
      split_ifs with hmem
      · rw [ih checked hchecked, or_iff_right (hchecked _ hmem)]
      · rw [except_bind_eq_ok]
        simp only [ensureKeyUnchanged_iff hkey hrecent hcf, not_or]
        constructor
        · rintro ⟨-, hunchanged, hrest⟩
          exact ⟨hunchanged, (ih _ (forall_mem_cons.2 ⟨hunchanged, hchecked⟩)).1 hrest⟩
        · rintro ⟨hunchanged, hrest⟩
          exact ⟨(), hunchanged, (ih _ (forall_mem_cons.2 ⟨hunchanged, hchecked⟩)).2 hrest⟩
    cases op with
    | put cf key | delete cf key => exact hpoint cf key (fun _ _ => Iff.rfl) hops.1 hfamily.1
    | deleteRange cf startKey endKey =>
      rw [ensureNoWriteConflicts, except_bind_eq_ok]
      simp only [ensureRangeUnchanged_iff hproper.1 hops.1 hrecent hfamily.1,
        ih checked hchecked, mem_cons, exists_eq_or_imp, not_or]
      have hhead : (∃ cfId k, (TransactionOp.deleteRange cf startKey endKey).Writes cfId k ∧
          state'.Changed start cfId k) ↔
          ∃ k, (startKey ≤ k ∧ k < endKey) ∧ state'.Changed start cf k := by
        constructor
        · rintro ⟨cfId, k, ⟨rfl, hk⟩, h⟩
          exact ⟨k, hk, h⟩
        · rintro ⟨k, hk, h⟩
          exact ⟨cf, k, ⟨rfl, hk⟩, h⟩
      rw [hhead]
      simp

/-- The assertions pass if nothing newer touches their keys. -/
theorem ensureNoAssertionConflicts_iff (hrecent : snapshots.state.RecentBacked state' start)
    {assertions : List KeyAssertion}
    (hkeys : ∀ a ∈ assertions, snapshots.KnowsKey state' start a.cfId a.key)
    (hfamily : ∀ a ∈ assertions, (snapshots.state.columnFamilies a.cfId).isSome)
    {checked : List (ℕ × Key)} (hchecked : ∀ p ∈ checked, ¬state'.Changed start p.1 p.2) :
    snapshots.ensureNoAssertionConflicts start checked assertions = .ok () ↔
      ¬∃ a ∈ assertions, state'.Changed start a.cfId a.key := by
  induction assertions generalizing checked with
  | nil => simp [ensureNoAssertionConflicts]
  | cons a assertions ih =>
    rw [forall_mem_cons] at hkeys hfamily
    have ih := fun c hc => @ih hkeys.2 hfamily.2 c hc
    obtain ⟨cf, key⟩ := a
    have hsome : (snapshots.state.columnFamilies cf).isNone = false := by
      rw [isNone_eq_false_iff]
      exact hfamily.1
    simp only [ensureNoAssertionConflicts, hsome, Bool.false_eq_true, if_false,
      mem_cons, exists_eq_or_imp]
    split_ifs with hmem
    · rw [ih checked hchecked, or_iff_right (hchecked _ hmem)]
    · rw [except_bind_eq_ok]
      simp only [ensureKeyUnchanged_iff hkeys.1 hrecent hfamily.1, not_or]
      constructor
      · rintro ⟨-, hunchanged, hrest⟩
        exact ⟨hunchanged, (ih _ (forall_mem_cons.2 ⟨hunchanged, hchecked⟩)).1 hrest⟩
      · rintro ⟨hunchanged, hrest⟩
        exact ⟨(), hunchanged, (ih _ (forall_mem_cons.2 ⟨hunchanged, hchecked⟩)).2 hrest⟩

/-- The intents decide as the operations do. -/
theorem existsAfterIntents_eq (cfId : ℕ) (k : Key) (ops : List TransactionOp) :
    existsAfterIntents cfId k (ops.map TransactionOp.intent) =
      (ops.find? (TransactionOp.Writes cfId k)).map TransactionOp.isPut := by
  refine findSome?_map_eq (fun op => ?_) ops
  cases op <;> rfl

/-- An insert after other operations passes if its key is not there. -/
theorem insertExists_iff (hkey : snapshots.KnowsKey state' start cfId k)
    (before : List TransactionOp) :
    ∃ found, (existsAfterIntents cfId k (before.reverse.map TransactionOp.intent)).elim
        (snapshots.keyExists cfId k) .ok = .ok found ∧
      (found ↔ state'.PresentAfter before cfId k) := by
  rw [existsAfterIntents_eq, RuntimeState.PresentAfter]
  cases before.reverse.find? (TransactionOp.Writes cfId k) with
  | none => exact hkey.exists
  | some op => exact ⟨op.isPut, rfl, Iff.rfl⟩

/-- The inserts pass if none finds its key. -/
theorem ensureInsertsAbsent_iff {ops : List TransactionOp} (before : List TransactionOp)
    (hkeys : ∀ cf key value ttl, TransactionOp.put cf key value ttl true ∈ ops →
      snapshots.KnowsKey state' start cf key) :
    ensureInsertsAbsent snapshots (before.reverse.map TransactionOp.intent) ops = .ok () ↔
      ¬∃ middle cf key value ttl after,
        ops = middle ++ TransactionOp.put cf key value ttl true :: after ∧
          state'.PresentAfter (before ++ middle) cf key := by
  induction ops generalizing before with
  | nil => simp [ensureInsertsAbsent]
  | cons op ops ih =>
    have ih := @ih (before ++ [op]) fun cf key value ttl h =>
      hkeys cf key value ttl (mem_cons_of_mem _ h)
    have hintents : (before ++ [op]).reverse.map TransactionOp.intent =
        op.intent :: before.reverse.map TransactionOp.intent := by simp
    rw [hintents] at ih
    -- The first insert is this one, or one after it.
    have hsplit : (∃ middle cf key value ttl after,
        op :: ops = middle ++ TransactionOp.put cf key value ttl true :: after ∧
          state'.PresentAfter (before ++ middle) cf key) ↔
        (∃ cf key value ttl, op = .put cf key value ttl true ∧
          state'.PresentAfter before cf key) ∨
        ∃ middle cf key value ttl after,
          ops = middle ++ TransactionOp.put cf key value ttl true :: after ∧
            state'.PresentAfter (before ++ [op] ++ middle) cf key := by
      constructor
      · rintro ⟨_ | ⟨op', middle⟩, cf, key, value, ttl, after, h, hpresent⟩
        · rw [nil_append, cons.injEq] at h
          exact .inl ⟨cf, key, value, ttl, h.1, by simpa using hpresent⟩
        · rw [cons_append, cons.injEq] at h
          obtain ⟨rfl, h⟩ := h
          exact .inr ⟨middle, cf, key, value, ttl, after, h, by simpa using hpresent⟩
      · rintro (⟨cf, key, value, ttl, rfl, hpresent⟩ |
          ⟨middle, cf, key, value, ttl, after, rfl, hpresent⟩)
        · exact ⟨[], cf, key, value, ttl, ops, rfl, by simpa using hpresent⟩
        · exact ⟨op :: middle, cf, key, value, ttl, after, rfl, by simpa using hpresent⟩
    have hskip : (∀ cf key value ttl, op ≠ .put cf key value ttl true) →
        ensureInsertsAbsent snapshots (before.reverse.map TransactionOp.intent) (op :: ops) =
          ensureInsertsAbsent snapshots (op.intent :: before.reverse.map TransactionOp.intent)
            ops := by
      intro hne
      cases op with
      | put cf key value ttl insertOnly =>
        cases insertOnly with
        | true => exact absurd rfl (hne cf key value ttl)
        | false => rfl
      | delete | deleteRange => rfl
    by_cases hinsert : ∃ cf key value ttl, op = .put cf key value ttl true
    · obtain ⟨cf, key, value, ttl, rfl⟩ := hinsert
      have hkey := hkeys cf key value ttl mem_cons_self
      obtain ⟨found, hfound, hiff⟩ := insertExists_iff hkey before
      rw [hsplit, ensureInsertsAbsent, hfound]
      simp only [bind, Except.bind, not_or]
      have hhead : (∃ cf' key' value' ttl', TransactionOp.put cf key value ttl true =
          .put cf' key' value' ttl' true ∧ state'.PresentAfter before cf' key') ↔
          state'.PresentAfter before cf key := by
        constructor
        · rintro ⟨cf', key', value', ttl', h, hpresent⟩
          cases h
          exact hpresent
        · exact fun h => ⟨cf, key, value, ttl, rfl, h⟩
      rw [hhead, ← hiff]
      cases found with
      | true => simp
      | false => simpa using ih
    · push Not at hinsert
      have hhead : ¬∃ cf key value ttl, op = .put cf key value ttl true ∧
          state'.PresentAfter before cf key := by
        rintro ⟨cf, key, value, ttl, h, -⟩
        exact hinsert cf key value ttl h
      rw [hskip hinsert, hsplit, or_iff_right hhead]
      exact ih

/-- The transaction is one that the API lets through to validation: it has a start
    sequence if it needs one, its families are there, and it deletes no empty range. -/
structure TransactionValidation.Admitted (validation : TransactionValidation)
    (state : RuntimeState) (start : ℕ) : Prop where
  startSequence : validation.conflictPolicy = .abortOnWriteConflict ∨ validation.assertions ≠ [] →
    validation.startSequence = some start
  families : ∀ op ∈ validation.ops, (state.columnFamilies op.cfId).isSome
  asserted : ∀ a ∈ validation.assertions, (state.columnFamilies a.cfId).isSome
  proper : ∀ op ∈ validation.ops, op.Proper

/-- What is told of all that the validation asks for is right about the state. -/
structure ValidationSnapshots.Knows (snapshots : ValidationSnapshots) (state' : RuntimeState)
    (start : ℕ) (validation : TransactionValidation) : Prop where
  ops : validation.conflictPolicy = .abortOnWriteConflict →
    ∀ op ∈ validation.ops, snapshots.KnowsOp state' start op
  assertions : ∀ a ∈ validation.assertions, snapshots.KnowsKey state' start a.cfId a.key
  inserts : ∀ cf key value ttl, TransactionOp.put cf key value ttl true ∈ validation.ops →
    snapshots.KnowsKey state' start cf key

/-- The transaction passes if it does not conflict. -/
theorem validateTransactionPreconditions_iff {state state' : RuntimeState} {start : ℕ}
    {overlay : StagedWriteOverlay} {proof : Option CommitValidationProof}
    (hadmitted : validation.Admitted state start) (hrecent : state.RecentBacked state' start)
    (hknows : Knows ⟨state, some overlay, proof⟩ state' start validation) :
    validateTransactionPreconditions state validation overlay proof = .ok () ↔
      ¬Conflicts state' start validation := by
  have hwrites : checkWrites ⟨state, some overlay, proof⟩ validation = .ok () ↔
      ¬(validation.conflictPolicy = .abortOnWriteConflict ∧
        ∃ op ∈ validation.ops, ∃ cfId k, op.Writes cfId k ∧ state'.Changed start cfId k) := by
    rw [checkWrites]
    cases hpolicy : validation.conflictPolicy with
    | lastWriteWins => simp
    | abortOnWriteConflict =>
      rw [hadmitted.startSequence (.inl hpolicy)]
      simp only [true_and]
      exact ensureNoWriteConflicts_iff hrecent (hknows.ops hpolicy) hadmitted.proper
        hadmitted.families (by simp)
  have hasserts : checkAssertions ⟨state, some overlay, proof⟩ validation =
      .ok () ↔ ¬∃ a ∈ validation.assertions, state'.Changed start a.cfId a.key := by
    rw [checkAssertions]
    split_ifs with hnil
    · simp [hnil]
    · rw [hadmitted.startSequence (.inr hnil)]
      exact ensureNoAssertionConflicts_iff hrecent hknows.assertions hadmitted.asserted (by simp)
  have hinserts := @ensureInsertsAbsent_iff ⟨state, some overlay, proof⟩ state' start
    validation.ops [] hknows.inserts
  rw [validateTransactionPreconditions, Conflicts, except_bind_eq_ok]
  simp only [except_bind_eq_ok, hwrites, hasserts]
  simp only [not_or]
  constructor
  · rintro ⟨-, h₁, -, h₂, h₃⟩
    exact ⟨h₁, h₂, hinserts.1 h₃⟩
  · rintro ⟨h₁, h₂, h₃⟩
    exact ⟨(), h₁, (), h₂, hinserts.2 h₃⟩

end Verdict

/-! ## The latest state -/

variable {s : ReadSnapshot}

section State

variable {state : RuntimeState} {bound start cfId : ℕ} {k : Key}

theorem exists_snapshot (h : (state.columnFamilies cfId).isSome) :
    ∃ s, state.latestSequenceSnapshot cfId = some s ∧
      s.readTimeMillis = state.observedTimeMillis := by
  obtain ⟨family, hfamily⟩ := isSome_iff_exists.1 h
  exact ⟨_, by rw [RuntimeState.latestSequenceSnapshot, hfamily]; rfl, rfl⟩

theorem changed_iff (h : state.latestSequenceSnapshot cfId = some s) :
    state.Changed start cfId k ↔ ∃ seq, start < seq ∧ s.HasSeqAt k seq := by
  simp [RuntimeState.Changed, RuntimeState.HasSeqAt, h]

theorem existsAt_iff (h : state.latestSequenceSnapshot cfId = some s) :
    state.ExistsAt cfId k ↔ ∃ expiration, s.LiveAt k expiration ∧
      isExpiredAt expiration state.observedTimeMillis = false := by
  simp [RuntimeState.ExistsAt, RuntimeState.LiveAt, h]

theorem knowsKey_state (hstate : state.WellFormed bound)
    (hfamily : (state.columnFamilies cfId).isSome) :
    KnowsKey ⟨state, none, none⟩ state start cfId k := by
  obtain ⟨s, hs, htime⟩ := exists_snapshot hfamily
  have hwf := hstate cfId s hs
  constructor
  · obtain ⟨latest, hlatest, hiff⟩ := hwf.latestStateSequence k
    refine ⟨latest, ?_, (hiff start).trans (changed_iff hs).symm⟩
    rw [← hlatest, latestKeySequence]
    simp [hs]
  · obtain ⟨value, hvalue, hiff⟩ := hwf.getBytes k
    refine ⟨value.isSome, ?_, ?_⟩
    · rw [keyExists]
      simp [hs, hvalue]
    · rw [hiff, existsAt_iff hs, htime]

theorem knowsRange_state (hstate : state.WellFormed bound)
    (hfamily : (state.columnFamilies cfId).isSome) (hlt : startKey < endKey) :
    KnowsRange ⟨state, none, none⟩ state start cfId startKey endKey := by
  obtain ⟨s, hs, -⟩ := exists_snapshot hfamily
  obtain ⟨o, ho, hany⟩ := (hstate cfId s hs).anySequenceAfterInRange hlt start
  refine ⟨o, ?_, by simpa only [changed_iff hs] using hany⟩
  rw [← ho, anyRangeSequenceAfter]
  simp [hs]

end State

/-! ## Proofs -/

/-- The snapshots that a proof was read from tell the same of what is newer than `start`,
    and of the values at `nowMillis`, as the state does. Between the two the data may have
    been flushed and compacted, but nothing has been applied. -/
def SameSince (snapshots : ℕ → Option ReadSnapshot) (state : RuntimeState) (start : ℕ) : Prop :=
  ∀ cfId s, snapshots cfId = some s → s.WellFormed state.appliedSequence ∧ ∀ k,
    ((∃ seq, start < seq ∧ s.HasSeqAt k seq) ↔ state.Changed start cfId k) ∧
    ((∃ expiration, s.LiveAt k expiration ∧
      isExpiredAt expiration state.observedTimeMillis = false) ↔ state.ExistsAt cfId k)

variable {conflictPolicy : ConflictPolicy}

namespace CommitValidationProof

variable {snapshots : ℕ → Option ReadSnapshot} {state : RuntimeState} {start cfId : ℕ} {k : Key}
  {proof proof' : CommitValidationProof}

/-- What the proof has of a key is right about the state. -/
def PointRight (state : RuntimeState) (start cfId : ℕ) (k : Key) (point : ValidationPointState) :
    Prop :=
  ((∃ seq ∈ point.sequence, start < seq) ↔ state.Changed start cfId k) ∧
    (point.existsAt state.observedTimeMillis ↔ state.ExistsAt cfId k)

/-- What the proof has of a range is right about the state. -/
def RangeRight (state : RuntimeState) (start cfId : ℕ) (startKey endKey : Key) (o : Option ℕ) :
    Prop :=
  o.isSome ↔ ∃ k, (startKey ≤ k ∧ k < endKey) ∧ state.Changed start cfId k

/-- All that the proof has is right about the state. -/
structure Right (state : RuntimeState) (start : ℕ) (proof : CommitValidationProof) : Prop where
  applied : proof.appliedSequence = state.appliedSequence
  points : ∀ cfId k point, proof.points.lookup (cfId, k) = some point →
    PointRight state start cfId k point
  ranges : ∀ cfId startKey endKey o, proof.ranges.lookup (cfId, startKey, endKey) = some o →
    RangeRight state start cfId startKey endKey o

/-- The second proof has what the first one has, and is right. -/
structure Grows (state : RuntimeState) (start : ℕ) (proof proof' : CommitValidationProof) :
    Prop where
  right : Right state start proof'
  points : ∀ p, (proof.points.lookup p).isSome → (proof'.points.lookup p).isSome
  ranges : ∀ p, (proof.ranges.lookup p).isSome → (proof'.ranges.lookup p).isSome

theorem Right.grows (h : Right state start proof) : Grows state start proof proof :=
  ⟨h, fun _ => id, fun _ => id⟩

theorem pointRight_of_reads (hsame : SameSince snapshots state start) (hs : snapshots cfId = some s)
    {point : ValidationPointState} (h : s.Reads k point) : PointRight state start cfId k point := by
  obtain ⟨-, hagree⟩ := hsame cfId s hs
  refine ⟨(h.newer start).trans (hagree k).1, ?_⟩
  rw [← (hagree k).2]
  simp only [← h.live]
  cases hvalue : point.value with
  | absent | present expiration => simp [ValidationPointState.existsAt, hvalue]

/-- A key that is read is right, and stays. -/
theorem readPoint_grows (hsame : SameSince snapshots state start) (hright : Right state start proof)
    (h : proof.readPoint snapshots cfId k = .ok proof') :
    Grows state start proof proof' ∧ (proof'.points.lookup (cfId, k)).isSome := by
  rw [readPoint] at h
  split_ifs at h with hsome
  · cases h
    exact ⟨hright.grows, hsome⟩
  · obtain ⟨s, hs, h⟩ := except_bind_eq_ok.1 h
    obtain ⟨point, hpoint, h⟩ := except_bind_eq_ok.1 h
    cases h
    have hs := elim_error_eq_ok.1 hs
    obtain ⟨point', hpoint', hreads⟩ := (hsame cfId s hs).1.validationPointState k
      (.inl hright.applied.ge)
    rw [hpoint] at hpoint'
    cases hpoint'
    refine ⟨⟨⟨hright.applied, fun cf k' point' hlookup => ?_, hright.ranges⟩, fun p hp => ?_,
      fun _ => id⟩, by simp⟩
    · rw [lookup_cons] at hlookup
      by_cases heq : (cf, k') = (cfId, k)
      · rw [beq_iff_eq.2 heq] at hlookup
        cases heq
        cases hlookup
        exact pointRight_of_reads hsame hs hreads
      · rw [beq_eq_false_iff_ne.2 heq] at hlookup
        exact hright.points cf k' point' hlookup
    · rw [lookup_cons]
      split
      · rfl
      · exact hp

/-- A range that is read is right, and stays. -/
theorem readRange_grows (hsame : SameSince snapshots state start) (hright : Right state start proof)
    (hlt : startKey < endKey)
    (h : proof.readRange snapshots cfId startKey endKey (some start) = .ok proof') :
    Grows state start proof proof' ∧
      (proof'.ranges.lookup (cfId, startKey, endKey)).isSome := by
  obtain ⟨threshold, hthreshold, h⟩ := except_bind_eq_ok.1 h
  cases hthreshold
  obtain ⟨s, hs, h⟩ := except_bind_eq_ok.1 h
  obtain ⟨o, ho, h⟩ := except_bind_eq_ok.1 h
  cases h
  have hs := elim_error_eq_ok.1 hs
  obtain ⟨hwf, hagree⟩ := hsame cfId s hs
  obtain ⟨o', ho', hany⟩ := hwf.anySequenceAfterInRange hlt start
  rw [ho] at ho'
  cases ho'
  have hrange : RangeRight state start cfId startKey endKey o := by
    simpa only [RangeRight, (hagree _).1] using hany
  refine ⟨⟨⟨hright.applied, hright.points, fun cf a b o' hlookup => ?_⟩, fun _ => id,
    fun p hp => ?_⟩, by simp⟩
  · rw [lookup_cons] at hlookup
    by_cases heq : (cf, a, b) = (cfId, startKey, endKey)
    · rw [beq_iff_eq.2 heq] at hlookup
      cases heq
      cases hlookup
      exact hrange
    · rw [beq_eq_false_iff_ne.2 heq] at hlookup
      exact hright.ranges cf a b o' hlookup
  · rw [lookup_cons]
    split
    · rfl
    · exact hp

/-- The proof has what the validation of the operation asks for. -/
def Complete (conflictPolicy : ConflictPolicy) (proof : CommitValidationProof) :
    TransactionOp → Prop
  | .put cfId key _ _ insertOnly => insertOnly ∨ conflictPolicy = .abortOnWriteConflict →
    (proof.points.lookup (cfId, key)).isSome
  | .delete cfId key => conflictPolicy = .abortOnWriteConflict →
    (proof.points.lookup (cfId, key)).isSome
  | .deleteRange cfId startKey endKey => conflictPolicy = .abortOnWriteConflict →
    (proof.ranges.lookup (cfId, startKey, endKey)).isSome

theorem Complete.mono {op : TransactionOp} (h : Complete conflictPolicy proof op)
    (hgrows : Grows state start proof proof') : Complete conflictPolicy proof' op := by
  cases op with
  | put | delete => exact fun hneeds => hgrows.points _ (h hneeds)
  | deleteRange => exact fun hneeds => hgrows.ranges _ (h hneeds)

theorem readOp_grows (hsame : SameSince snapshots state start) {startSequence : Option ℕ}
    (hstart : conflictPolicy = .abortOnWriteConflict → startSequence = some start)
    {op : TransactionOp} (hproper : op.Proper) (hright : Right state start proof)
    (h : readOp snapshots conflictPolicy startSequence proof op = .ok proof') :
    Grows state start proof proof' ∧ Complete conflictPolicy proof' op := by
  cases op with
  | put | delete =>
    rw [readOp] at h
    split_ifs at h with hneeds
    · obtain ⟨hgrows, hsome⟩ := readPoint_grows hsame hright h
      exact ⟨hgrows, fun _ => hsome⟩
    · cases h
      exact ⟨hright.grows, fun h => absurd h hneeds⟩
  | deleteRange cf startKey endKey =>
    rw [readOp] at h
    split_ifs at h with hneeds
    · rw [hstart hneeds] at h
      obtain ⟨hgrows, hsome⟩ := readRange_grows hsame hright hproper h
      exact ⟨hgrows, fun _ => hsome⟩
    · cases h
      exact ⟨hright.grows, fun h => absurd h hneeds⟩

/-- A proof that has been read is right, and has all that the validation asks for. -/
theorem read_right (hsame : SameSince snapshots state start)
    (hadmitted : validation.Admitted state start)
    (h : (read state.appliedSequence snapshots validation.ops validation.assertions
      validation.conflictPolicy validation.startSequence).Returns proof) :
    Right state start proof ∧
      (∀ op ∈ validation.ops, Complete validation.conflictPolicy proof op) ∧
      ∀ a ∈ validation.assertions, (proof.points.lookup (a.cfId, a.key)).isSome := by
  obtain ⟨proof₁, h₁, h₂⟩ := Exec.returns_bind h
  have hempty : Right state start { appliedSequence := state.appliedSequence } :=
    ⟨rfl, by simp, by simp⟩
  have hops := @Exec.returns_foldlM _ _ _ _ _ _ _
    (fun done proof => Right state start proof ∧
      ∀ op ∈ done, Complete validation.conflictPolicy proof op) h₁ ⟨hempty, by simp⟩ (by
    rintro done op hop proof proof' hread ⟨hright, hdone⟩
    obtain ⟨-, -, hread⟩ := Exec.returns_bind hread
    obtain ⟨hgrows, hcomplete⟩ := readOp_grows hsame
      (fun hpolicy => hadmitted.startSequence (.inl hpolicy)) (hadmitted.proper op hop) hright
      (Exec.returns_ofExcept.1 hread)
    exact ⟨hgrows.right, forall_mem_append.2
      ⟨fun op' hop' => (hdone op' hop').mono hgrows, forall_mem_singleton.2 hcomplete⟩⟩)
  have hassertions := @Exec.returns_foldlM _ _ _ _ _ _ _
    (fun done proof => Right state start proof ∧
      (∀ op ∈ validation.ops, Complete validation.conflictPolicy proof op) ∧
      ∀ a ∈ done, (proof.points.lookup (a.cfId, a.key)).isSome) h₂
    ⟨hops.1, hops.2, by simp⟩ (by
    rintro done a - proof proof' hread ⟨hright, hcomplete, hdone⟩
    obtain ⟨-, -, hread⟩ := Exec.returns_bind hread
    obtain ⟨hgrows, hsome⟩ := readPoint_grows hsame hright (Exec.returns_ofExcept.1 hread)
    exact ⟨hgrows.right, fun op hop => (hcomplete op hop).mono hgrows, forall_mem_append.2
      ⟨fun a' ha' => hgrows.points _ (hdone a' ha'), forall_mem_singleton.2 hsome⟩⟩)
  exact hassertions

theorem Right.knowsKey (h : Right state start proof)
    (hsome : (proof.points.lookup (cfId, k)).isSome) :
    KnowsKey ⟨state, none, some proof⟩ state start cfId k := by
  obtain ⟨point, hpoint⟩ := isSome_iff_exists.1 hsome
  obtain ⟨hnewer, hexists⟩ := h.points cfId k point hpoint
  have hread : proof.point cfId k = .ok point := by rw [CommitValidationProof.point, hpoint]; rfl
  constructor
  · refine ⟨point.sequence, ?_, hnewer⟩
    rw [latestKeySequence]
    simp [hread]
  · refine ⟨point.existsAt state.observedTimeMillis, ?_, hexists⟩
    rw [keyExists]
    simp [hread]

theorem Right.knowsRange (h : Right state start proof)
    (hsome : (proof.ranges.lookup (cfId, startKey, endKey)).isSome) :
    KnowsRange ⟨state, none, some proof⟩ state start cfId startKey endKey := by
  obtain ⟨o, ho⟩ := isSome_iff_exists.1 hsome
  refine ⟨o, ?_, h.ranges cfId startKey endKey o ho⟩
  rw [anyRangeSequenceAfter]
  simp [CommitValidationProof.range, ho]

end CommitValidationProof

/-! ## Staged transactions -/

section Staged

variable {state state' : RuntimeState} {units : List PreparedTransactionAppend}
  {proof : Option CommitValidationProof} {bound bound' start cfId : ℕ} {k : Key}

/-- The state in which the staged transactions have been applied. -/
structure AppliedStaged (state : RuntimeState) (units : List PreparedTransactionAppend)
    (bound bound' : ℕ) (state' : RuntimeState) : Prop where
  wellFormed : state.WellFormed bound
  growing : (stagedOps units).Pairwise (·.sequence < ·.sequence)
  bound_lt : ∀ op ∈ stagedOps units, bound < op.sequence
  proper : ∀ op ∈ stagedOps units, op.Proper
  applied : Applied state (stagedOps units) bound' state'

namespace AppliedStaged

variable (h : AppliedStaged state units bound bound' state')

include h

theorem le_bound {seq : ℕ} (hseq : state.HasSeqAt cfId k seq) : seq ≤ bound := by
  obtain ⟨s, hs, hseq⟩ := hseq
  exact (h.wellFormed cfId s hs).le_bound hseq

theorem changed_iff : state'.Changed start cfId k ↔
    (lastTouching cfId k (stagedOps units)).elim (state.Changed start cfId k)
      (start < ·.sequence) := by
  have hlast := @IsNewest.find?_reverse _ sequence
    (TransactionApplyOp.Touches cfId k) _ _ h.growing
  rw [RuntimeState.Changed, lastTouching]
  simp only [h.applied.hasSeqAt]
  cases hfind : (stagedOps units).reverse.find? (TransactionApplyOp.Touches cfId k) with
  | none =>
    rw [hfind] at hlast
    have hnone : ∀ op ∈ stagedOps units, ¬op.Touches cfId k := fun op hop htouches =>
      Set.eq_empty_iff_forall_notMem.1 hlast op ⟨hop, htouches⟩
    rw [elim_none, RuntimeState.Changed]
    refine exists_congr fun seq => and_congr_right fun _ => or_iff_left ?_
    rintro ⟨op, hop, htouches, -⟩
    exact hnone op hop htouches
  | some op =>
    rw [hfind] at hlast
    rw [elim_some]
    constructor
    · rintro ⟨seq, hlt, hold | ⟨op', hop', htouches, rfl⟩⟩
      · exact hlt.trans_le ((h.le_bound hold).trans (h.bound_lt op hlast.mem.1).le)
      · exact hlt.trans_le (hlast.2 op' ⟨hop', htouches⟩)
    · exact fun hlt => ⟨op.sequence, hlt, .inr ⟨op, hlast.mem.1, hlast.mem.2, rfl⟩⟩

theorem existsAt_iff : state'.ExistsAt cfId k ↔
    (lastTouching cfId k (stagedOps units)).elim (state.ExistsAt cfId k)
      fun op => ValidationPointState.existsAt ⟨none, op.leaves⟩ state.observedTimeMillis := by
  rw [RuntimeState.ExistsAt, h.applied.time]
  simp only [h.applied.liveAt]
  cases lastTouching cfId k (stagedOps units) with
  | none => rfl
  | some op =>
    rw [elim_some]
    cases hleaves : op.leaves with
    | absent | present expiration => simp [ValidationPointState.existsAt, hleaves]

theorem changed_of_changed (hchanged : state.Changed start cfId k) :
    state'.Changed start cfId k := by
  obtain ⟨seq, hlt, hseq⟩ := hchanged
  exact ⟨seq, hlt, (h.applied.hasSeqAt cfId k seq).2 (.inl hseq)⟩

/-- With the overlay, what is told of a key is right about the state to come. -/
theorem knowsKey
    (hkey : KnowsKey ⟨state, none, proof⟩ state start cfId k) :
    KnowsKey ⟨state, some (stagedOverlay units), proof⟩ state' start cfId k := by
  constructor
  · rw [h.changed_iff]
    have hlatest : latestKeySequence ⟨state, some (stagedOverlay units), proof⟩
        cfId k = (lastTouching cfId k (stagedOps units)).elim
          (latestKeySequence ⟨state, none, proof⟩ cfId k)
          fun op => .ok (some op.sequence) := by
      rw [latestKeySequence, bind_some,
        StagedWriteOverlay.latestKeySequence_stagedOverlay]
      cases lastTouching cfId k (stagedOps units) <;> rfl
    rw [hlatest]
    cases lastTouching cfId k (stagedOps units) with
    | none => exact hkey.latest
    | some op => exact ⟨some op.sequence, rfl, by simp⟩
  · rw [h.existsAt_iff]
    have hexists : keyExists ⟨state, some (stagedOverlay units), proof⟩
        cfId k = (lastTouching cfId k (stagedOps units)).elim
          (keyExists ⟨state, none, proof⟩ cfId k) fun op =>
            .ok (ValidationPointState.existsAt ⟨none, op.leaves⟩ state.observedTimeMillis) := by
      rw [keyExists, bind_some,
        StagedWriteOverlay.keyExists_stagedOverlay]
      cases lastTouching cfId k (stagedOps units) <;> rfl
    rw [hexists]
    cases lastTouching cfId k (stagedOps units) with
    | none => exact hkey.exists
    | some op => exact ⟨_, rfl, Iff.rfl⟩

/-- With the overlay, what is told of a range is right about the state to come. -/
theorem knowsRange (hlt : startKey < endKey)
    (hrange : KnowsRange ⟨state, none, proof⟩ state start cfId startKey endKey) :
    KnowsRange ⟨state, some (stagedOverlay units), proof⟩ state' start cfId
      startKey endKey := by
  have hlast := @IsNewest.find?_reverse _ sequence
    (TouchesRange cfId startKey endKey) _ _ h.growing
  have hany : anyRangeSequenceAfter ⟨state, some (stagedOverlay units), proof⟩
      cfId startKey endKey start =
        ((((stagedOps units).reverse.find? (TouchesRange cfId startKey
          endKey)).map sequence).filter (start < ·)).elim
            (anyRangeSequenceAfter ⟨state, none, proof⟩ cfId startKey endKey
              start) fun seq => .ok (some seq) := by
    rw [anyRangeSequenceAfter, bind_some,
      StagedWriteOverlay.latestRangeSequence_stagedOverlay]
    cases (((stagedOps units).reverse.find? (TouchesRange cfId startKey
      endKey)).map sequence).filter (start < ·) <;> rfl
  rw [KnowsRange, hany]
  cases hnewer : (((stagedOps units).reverse.find? (TouchesRange cfId startKey
      endKey)).map sequence).filter (start < ·) with
  | some seq =>
    obtain ⟨hseq, hstart⟩ := filter_eq_some_iff.1 hnewer
    obtain ⟨op, hfind, rfl⟩ := map_eq_some_iff.1 hseq
    rw [hfind] at hlast
    obtain ⟨hop, htouches⟩ := hlast.mem
    obtain ⟨k, hk, htouches⟩ :=
      (touchesRange_iff (h.proper op hop) hlt).1 htouches
    refine ⟨some op.sequence, rfl, iff_of_true rfl ⟨k, hk, op.sequence, of_decide_eq_true hstart, ?_⟩⟩
    exact (h.applied.hasSeqAt cfId k _).2 (.inr ⟨op, hop, htouches, rfl⟩)
  | none =>
    obtain ⟨o, ho, hiff⟩ := hrange
    refine ⟨o, ho, hiff.trans ⟨?_, ?_⟩⟩
    · rintro ⟨k, hk, hchanged⟩
      exact ⟨k, hk, h.changed_of_changed hchanged⟩
    · rintro ⟨k, hk, seq, hstart, hseq⟩
      refine ⟨k, hk, seq, hstart, ((h.applied.hasSeqAt cfId k seq).1 hseq).resolve_right ?_⟩
      -- The last staged write to the range is at least as new as any other.
      rintro ⟨op, hop, htouches, rfl⟩
      have htouches := (touchesRange_iff (h.proper op hop) hlt).2
        ⟨k, hk, htouches⟩
      cases hfind : (stagedOps units).reverse.find?
          (TouchesRange cfId startKey endKey) with
      | none =>
        rw [hfind] at hlast
        exact Set.eq_empty_iff_forall_notMem.1 hlast op ⟨hop, htouches⟩
      | some last =>
        rw [hfind] at hlast hnewer
        rw [filter_eq_none_iff] at hnewer
        exact hnewer last.sequence rfl
          (decide_eq_true (hstart.trans_le (hlast.2 op ⟨hop, htouches⟩)))

theorem knows (hproper : ∀ op ∈ validation.ops, op.Proper)
    (hknows : Knows ⟨state, none, proof⟩ state start validation) :
    Knows ⟨state, some (stagedOverlay units), proof⟩ state' start
      validation := by
  refine ⟨fun hpolicy op hop => ?_, fun a ha => h.knowsKey (hknows.assertions a ha),
    fun cf key value ttl hop => h.knowsKey (hknows.inserts cf key value ttl hop)⟩
  have hop' := hknows.ops hpolicy op hop
  cases op with
  | put | delete => exact h.knowsKey hop'
  | deleteRange => exact h.knowsRange (hproper _ hop) hop'

theorem recentBacked (hrecent : state.RecentBacked state start) :
    state.RecentBacked state' start :=
  ⟨hrecent.proper, fun entry hentry hlt hfamily k hstart hend =>
    h.changed_of_changed (hrecent.changed entry hentry hlt hfamily k hstart hend)⟩

end AppliedStaged

end Staged

/-! ## Validation -/

section

variable {state : RuntimeState} {start bound : ℕ} {validation : TransactionValidation}

theorem knows_state (hstate : state.WellFormed bound) (hadmitted : validation.Admitted state start) :
    Knows ⟨state, none, none⟩ state start validation := by
  refine ⟨fun _ op hop => ?_, fun a ha => knowsKey_state hstate (hadmitted.asserted a ha),
    fun cf key value ttl hop => knowsKey_state hstate (hadmitted.families _ hop)⟩
  have hfamily := hadmitted.families op hop
  cases op with
  | put | delete => exact knowsKey_state hstate hfamily
  | deleteRange => exact knowsRange_state hstate hfamily (hadmitted.proper _ hop)

theorem knows_proof {snapshots : ℕ → Option ReadSnapshot} (hsame : SameSince snapshots state start)
    (hadmitted : validation.Admitted state start) {proof : CommitValidationProof}
    (h : (CommitValidationProof.read state.appliedSequence snapshots validation.ops
      validation.assertions validation.conflictPolicy validation.startSequence).Returns proof) :
    Knows ⟨state, none, some proof⟩ state start validation := by
  obtain ⟨hright, hcomplete, hassertions⟩ := CommitValidationProof.read_right hsame hadmitted h
  refine ⟨fun hpolicy op hop => ?_, fun a ha => hright.knowsKey (hassertions a ha),
    fun cf key value ttl hop => hright.knowsKey (hcomplete _ hop (.inl rfl))⟩
  have hop' := hcomplete op hop
  cases op with
  | put => exact hright.knowsKey (hop' (.inr hpolicy))
  | delete => exact hright.knowsKey (hop' hpolicy)
  | deleteRange => exact hright.knowsRange (hop' hpolicy)

end

/-- Validation against staged transactions is validation against the state in which they
    have been applied, be it with or without a proof read at the current applied
    sequence. -/
theorem validation_verdict (state : RuntimeState) (start : ℕ)
    (units : List PreparedTransactionAppend) (validation : TransactionValidation)
    (hstate : state.WellFormed state.appliedSequence) (hrecent : state.RecentBacked state start)
    (hstaged : Staged state state.appliedSequence units)
    (hadmitted : validation.Admitted state start) :
    ∃ state', state.applyPreparedGroup units = .ok state' ∧
      ((∃ error, validateTransactionPreconditions state validation (stagedOverlay units) none =
        .error error) ↔ Conflicts state' start validation) ∧
      ∀ snapshots, SameSince snapshots state start → ∀ proof : CommitValidationProof,
        (CommitValidationProof.read state.appliedSequence snapshots validation.ops
          validation.assertions validation.conflictPolicy
            validation.startSequence).Returns proof →
        ((∃ error, validateTransactionPreconditions state validation (stagedOverlay units)
          (some proof) = .error error) ↔
        ∃ error, validateTransactionPreconditions state validation (stagedOverlay units) none =
          .error error) := by
  obtain ⟨state', bound', happly, happlied⟩ := RuntimeState.applyPreparedGroup_ok hstate
    hstaged.growing hstaged.after_lt hstaged.proper hstaged.family
  have h : AppliedStaged state units state.appliedSequence bound' state' :=
    ⟨hstate, hstaged.growing, hstaged.after_lt, hstaged.proper, happlied⟩
  have hverdict : ∀ proof, Knows ⟨state, none, proof⟩ state start validation →
      ((∃ error, validateTransactionPreconditions state validation (stagedOverlay units) proof =
        .error error) ↔ Conflicts state' start validation) := by
    intro proof hknows
    have hiff := validateTransactionPreconditions_iff hadmitted (h.recentBacked hrecent)
      (h.knows hadmitted.proper hknows)
    rw [← not_iff_not, ← hiff]
    cases validateTransactionPreconditions state validation (stagedOverlay units) proof <;> simp
  have hnone := hverdict none (knows_state hstate hadmitted)
  refine ⟨state', happly, hnone, fun snapshots hsame proof hread => ?_⟩
  exact (hverdict (some proof) (knows_proof hsame hadmitted hread)).trans hnone.symm

/-- A memtable with one key. -/
def commitMemtable : Memtable := ⟨[⟨readKey, 3, false, some [], none⟩], [], by simp⟩

/-- A family with that memtable. A staged transaction deletes the key. -/
def commitState : RuntimeState where
  columnFamilies cfId := if cfId = 0 then some ⟨commitMemtable, []⟩ else none
  readViewFor _ := .fromShared []
  sstReader _ := .ok ⟨[], []⟩
  appliedSequence := 5
  observedTimeMillis := 0

def stagedDelete : List PreparedTransactionAppend :=
  [⟨⟨9, 0, 6, 7, 8⟩, buildApplyOps [.delete 0 readKey] 7 0⟩]

/-- An insert of the key. -/
def insertAgain : TransactionValidation :=
  ⟨[.put 0 readKey [] none true], [], none, .lastWriteWins⟩

theorem commitState_wellFormed : commitState.WellFormed commitState.appliedSequence := by
  intro cfId s hs
  obtain ⟨family, hfamily, hfam⟩ := map_eq_some_iff.1 hs
  have hfamily' : family = ⟨commitMemtable, []⟩ := by
    rw [commitState] at hfamily
    dsimp only at hfamily
    split_ifs at hfamily
    exact (some.inj hfamily).symm
  have hmemtables : s.memtables = [commitMemtable] := by
    rw [← hfam, hfamily']
    rfl
  have hfiles : s.sstView.files = [] := by
    rw [← hfam]
    rfl
  have hcontains : ∀ d, s.Contains d → d = commitMemtable.contents := by
    rintro d (⟨m, hm, rfl⟩ | ⟨file, hfile, -⟩)
    · rw [hmemtables, mem_singleton] at hm
      rw [hm]
    · rw [hfiles] at hfile
      exact absurd hfile not_mem_nil
  refine ⟨⟨[], ⟨by rw [← hfam]; rfl, by simp, fun _ => rfl⟩, ?_, by simp, by simp⟩, ⟨?_, ?_⟩, ?_, ?_⟩
  · rw [hmemtables]
    exact pairwise_singleton _ _
  · rw [hfiles]
    simp
  · rintro k a ⟨source, hsource, ha⟩ b ⟨source', hsource', hb⟩ -
    rw [Set.mem_ofPred_eq, ReadSnapshot.sources, hmemtables, hfiles] at hsource hsource'
    obtain rfl : source = .memtable commitMemtable := by simpa using hsource
    obtain rfl : source' = .memtable commitMemtable := by simpa using hsource'
    obtain ⟨v, hv, -, -, rfl⟩ := ha
    obtain ⟨w, hw, -, -, rfl⟩ := hb
    rw [mem_singleton.1 hv, mem_singleton.1 hw]
  · intro d hd
    rw [hcontains d hd]
    exact forall_mem_nil _
  · intro d hd
    rw [hcontains d hd]
    decide

theorem validation_verdict_delete :
    Staged commitState commitState.appliedSequence stagedDelete ∧
    ∃ state', commitState.applyPreparedGroup stagedDelete = .ok state' ∧
      ¬Conflicts state' 2 insertAgain := by
  have hstaged : Staged commitState commitState.appliedSequence stagedDelete :=
    .cons (by decide) rfl rfl rfl (by simp [TransactionOp.cfId]) (by simp [TransactionOp.Proper])
      (.nil _)
  have hadmitted : insertAgain.Admitted commitState 2 :=
    ⟨by simp [insertAgain], by simp [insertAgain, TransactionOp.cfId, commitState],
      by simp [insertAgain], by simp [insertAgain, TransactionOp.Proper]⟩
  have hrecent : commitState.RecentBacked commitState 2 :=
    ⟨forall_mem_nil _, forall_mem_nil _⟩
  obtain ⟨state', happly, hverdict, -⟩ := validation_verdict commitState 2 stagedDelete insertAgain
    commitState_wellFormed hrecent hstaged hadmitted
  have hok : validateTransactionPreconditions commitState insertAgain
      (stagedOverlay stagedDelete) none = .ok () := by decide
  refine ⟨hstaged, state', happly, fun hconflicts => ?_⟩
  obtain ⟨error, herror⟩ := hverdict.2 hconflicts
  rw [hok] at herror
  cases herror

/-- An assertion about a family that is not there. -/
def assertMissing : TransactionValidation := ⟨[], [⟨1, readKey⟩], some 2, .lastWriteWins⟩

/-- It is rejected, although nothing has touched the key. -/
theorem missing_family_rejected :
    validateTransactionPreconditions commitState assertMissing {} none =
      .error (.invalidArgument "column family 1 does not exist") ∧
    ¬Conflicts commitState 2 assertMissing := by
  refine ⟨by decide, ?_⟩
  rintro (⟨h, -⟩ | ⟨a, ha, seq, -, s, hs, -⟩ | ⟨before, cf, key, value, ttl, after, h, -⟩)
  · cases h
  · rw [mem_singleton.1 ha] at hs
    cases hs
  · exact absurd h.symm (by simp [assertMissing])

end Midge
