import Midge.Resolve

/-!
# The state of a key

What each source of a read says about a key as of a snapshot: the newest version
of the key that the snapshot sees, and the highest range tombstone covering it.
Sources are memtables and SSTs. A read merges their states, keeping the newest
(`mergeBestState`); two states at one sequence have to agree.

Sequences are `u64`s, and the largest one stands for the latest state
(`visibleAt`).
-/

namespace Midge

/-- Whether a value with this expiration has expired. -/
def isExpiredAt (expiration : Option ℕ) (nowMillis : ℕ) : Bool := expiration.any (· ≤ nowMillis)

/-- Whether a snapshot sees a sequence. -/
def visibleAt (snapshotSeq seq : ℕ) : Bool := snapshotSeq == usizeMax || decide (seq ≤ snapshotSeq)

/-- The greater of two optional sequences. -/
def maxSeq : Option ℕ → Option ℕ → Option ℕ
  | none, b => b
  | some a, none => some a
  | some a, some b => some (max a b)

/-- The sequence of a state. -/
def stateSequence : KeyState → Option ℕ
  | .absent => none
  | .tombstone seq => some seq
  | .value _ seq _ _ => some seq

/-! ## Merging states -/

/-- Two states at one sequence have to agree. -/
def checkConflict (message : ℕ → String) (existing candidate : KeyState) : MidgeResult Unit :=
  match VersionContent.fromState existing, VersionContent.fromState candidate with
  | some old, some new =>
    if stateSequence candidate = stateSequence existing ∧
        resolveSameSequence old new = .error () then
      .error (.corruption (message ((stateSequence candidate).getD 0)))
    else .ok ()
  | _, _ => .ok ()

/-- Whether the candidate replaces the existing state. -/
def candidateWins (existing candidate : KeyState) : MidgeResult Bool := do
  checkConflict (fun seq => s!"conflicting read versions at sequence {seq}") existing candidate
  return decide ((stateSequence existing).getD 0 < (stateSequence candidate).getD 0) ||
    decide (existing = .absent)

/-- Merge a state into the best one so far. -/
def mergeBestState (best : Option KeyState) (state : KeyState) : MidgeResult (Option KeyState) :=
  if state = .absent then .ok best
  else do
    let wins ← best.elim (.ok true) fun existing => candidateWins existing state
    return if wins then some state else best

/-- The highest sequence of the range tombstones covering `key` that the snapshot
    sees. -/
def maxCoveringSeq (tombstones : List RangeTombstone) (key : Key) (snapshotSeq : ℕ) : Option ℕ :=
  ((tombstones.filter fun t => t.visibleAt snapshotSeq && decide (t.Covers key)).map
    RangeTombstone.seq).max?

/-! ## SSTs -/

/-- The state that an entry of an SST stands for. -/
def RawSstVersion.sstState (v : RawSstVersion) : KeyState :=
  if v.isTombstone then .tombstone v.seq
  else v.value.elim .absent fun value => .value value v.seq v.expiration .put

/-- Merge the state of an entry into the best one of its SST. -/
def mergeNewerState (best candidate : KeyState) : MidgeResult KeyState := do
  checkConflict (fun seq => s!"conflicting SST versions at sequence {seq}") best candidate
  return if best = .absent ∨ (stateSequence best).getD 0 < (stateSequence candidate).getD 0 then
    candidate else best

/-- Merge the visible versions of `key`. Versions of a key are newest first, so
    that the run is over at the first one that is older than the best. -/
def mergeKeyRun (key : Key) (snapshotSeq : ℕ) : List RawSstVersion → KeyState → MidgeResult KeyState
  | [], best => .ok best
  | v :: versions, best =>
    match cmp v.key key with
    | .lt => mergeKeyRun key snapshotSeq versions best
    | .gt => .ok best
    | .eq =>
      if best ≠ .absent ∧ v.seq < (stateSequence best).getD 0 then .ok best
      else if visibleAt snapshotSeq v.seq then do
        let best ← mergeNewerState best v.sstState
        mergeKeyRun key snapshotSeq versions best
      else mergeKeyRun key snapshotSeq versions best

/-- The state of a key in an SST. -/
def SstContents.getRawStateAt (d : SstContents) (key : Key) (snapshotSeq : ℕ) :
    MidgeResult KeyState :=
  mergeKeyRun key snapshotSeq d.versions .absent

/-! ## Memtables -/

/-- A memtable: versions, at most one for each key and sequence, and range
    tombstones. -/
structure Memtable where
  versions : List RawSstVersion
  tombstones : List RangeTombstone
  unique : ∀ v ∈ versions, ∀ w ∈ versions, v.key = w.key → v.seq = w.seq → v = w

namespace Memtable

/-- What a memtable holds. -/
def contents (m : Memtable) : SstContents := ⟨m.versions, m.tombstones⟩

/-- The newest version of `key` that the snapshot sees. -/
def visibleVersion (m : Memtable) (key : Key) (snapshotSeq : ℕ) : Option RawSstVersion :=
  (m.versions.filter fun v => decide (v.key = key) && visibleAt snapshotSeq v.seq).argmax
    RawSstVersion.seq

/-- The state that a version in a memtable stands for. -/
def versionState (v : RawSstVersion) : KeyState :=
  if v.isTombstone then .tombstone v.seq
  else v.value.elim (.tombstone v.seq) fun value => .value value v.seq v.expiration .put

/-- The state of a key in a memtable. -/
def getRawKeyStateAt (m : Memtable) (key : Key) (snapshotSeq : ℕ) : KeyState :=
  (m.visibleVersion key snapshotSeq).elim .absent versionState

end Memtable

/-! ## What a source tells of a key -/

/-- What a source tells of a key as of a snapshot. -/
structure Finding where
  state : KeyState
  cover : Option ℕ
  deriving DecidableEq, Repr

/-- The sequence of the state or of the range tombstone. -/
def Finding.HasSeq (f : Finding) (seq : ℕ) : Prop :=
  stateSequence f.state = some seq ∨ f.cover = some seq

/-- Nothing. -/
def Finding.nothing : Finding := ⟨.absent, none⟩

instance : Inhabited Finding := ⟨.nothing⟩

/-- What a memtable tells of a key. -/
def Memtable.finding (m : Memtable) (key : Key) (snapshotSeq : ℕ) : Finding :=
  ⟨m.getRawKeyStateAt key snapshotSeq, maxCoveringSeq m.tombstones key snapshotSeq⟩

/-- What an SST tells of a key. -/
def SstContents.finding (d : SstContents) (key : Key) (snapshotSeq : ℕ) : MidgeResult Finding := do
  let state ← d.getRawStateAt key snapshotSeq
  return ⟨state, maxCoveringSeq d.tombstones key snapshotSeq⟩

section Spec

variable {key : Key} {snapshotSeq seq : ℕ}

theorem of_maxCoveringSeq {tombstones : List RangeTombstone}
    (h : maxCoveringSeq tombstones key snapshotSeq = some seq) :
    ∃ t ∈ tombstones, t.Covers key ∧ t.seq = seq := by
  obtain ⟨hmem, -⟩ := List.max?_eq_some_iff.1 h
  obtain ⟨t, ht, rfl⟩ := List.mem_map.1 hmem
  obtain ⟨ht, hc⟩ := List.mem_filter.1 ht
  simp only [Bool.and_eq_true, decide_eq_true_eq] at hc
  exact ⟨t, ht, hc.2, rfl⟩

theorem mergeNewerState_eq {best candidate state : KeyState}
    (h : mergeNewerState best candidate = .ok state) : state = best ∨ state = candidate := by
  rw [mergeNewerState] at h
  obtain ⟨⟨⟩, -, h⟩ := except_bind_eq_ok.1 h
  have h := Except.ok.inj h
  split_ifs at h
  exacts [.inr h.symm, .inl h.symm]

theorem stateSequence_sstState {v : RawSstVersion} (h : stateSequence v.sstState = some seq) :
    v.seq = seq := by
  rw [RawSstVersion.sstState] at h
  split_ifs at h
  · exact Option.some.inj h
  · cases hv : v.value with
    | none => simp [hv, stateSequence] at h
    | some value => simpa [hv, stateSequence] using h

/-- A state comes from a version of the key. -/
theorem of_mergeKeyRun {versions : List RawSstVersion} {best state : KeyState}
    (h : mergeKeyRun key snapshotSeq versions best = .ok state) :
    state = best ∨ ∃ v ∈ versions, v.key = key ∧ state = v.sstState := by
  induction versions generalizing best with
  | nil => exact .inl (Except.ok.inj h).symm
  | cons v versions ih =>
    have hrest : ∀ {best'}, mergeKeyRun key snapshotSeq versions best' = .ok state →
        state = best' ∨ ∃ v' ∈ v :: versions, v'.key = key ∧ state = v'.sstState := by
      intro best' h
      rcases ih h with rfl | ⟨v', hv', h'⟩
      exacts [.inl rfl, .inr ⟨v', List.mem_cons_of_mem _ hv', h'⟩]
    rw [mergeKeyRun] at h
    split at h
    next => exact hrest h
    next => exact .inl (Except.ok.inj h).symm
    next heq =>
      split_ifs at h
      · exact .inl (Except.ok.inj h).symm
      · obtain ⟨best', hmerge, h⟩ := except_bind_eq_ok.1 h
        rcases hrest h with rfl | h
        · rcases mergeNewerState_eq hmerge with rfl | rfl
          · exact .inl rfl
          · exact .inr ⟨v, List.mem_cons_self, (cmp_eq_eq_iff _ _).1 heq, rfl⟩
        · exact .inr h
      · exact hrest h

/-- What an SST tells of a key is there. -/
theorem SstContents.hasSeqAt_of_finding {d : SstContents} {f : Finding}
    (h : d.finding key snapshotSeq = .ok f) (hseq : f.HasSeq seq) : d.HasSeqAt key seq := by
  obtain ⟨state, hstate, h⟩ := except_bind_eq_ok.1 h
  cases h
  rcases hseq with hseq | hseq
  · rcases of_mergeKeyRun hstate with rfl | ⟨v, hv, hk, rfl⟩
    · simp [stateSequence] at hseq
    · exact .inl ⟨v, hv, hk, stateSequence_sstState hseq⟩
  · obtain ⟨t, ht, hc, hs⟩ := of_maxCoveringSeq hseq
    exact .inr ⟨t, ht, hc, hs⟩

theorem Memtable.stateSequence_versionState (v : RawSstVersion) :
    stateSequence (versionState v) = some v.seq := by
  rw [versionState]
  split_ifs
  · rfl
  · cases v.value <;> rfl

/-- What a memtable tells of a key is there. -/
theorem Memtable.hasSeqAt_of_finding {m : Memtable}
    (hseq : (m.finding key snapshotSeq).HasSeq seq) : m.contents.HasSeqAt key seq := by
  rcases hseq with hseq | hseq
  · simp only [finding, getRawKeyStateAt] at hseq
    cases hv : m.visibleVersion key snapshotSeq with
    | none => simp [hv, stateSequence] at hseq
    | some v =>
      rw [hv, Option.elim_some, stateSequence_versionState, Option.some.injEq] at hseq
      obtain ⟨hmem, hk⟩ := List.mem_filter.1 (List.argmax_mem hv)
      simp only [Bool.and_eq_true, decide_eq_true_eq] at hk
      exact .inl ⟨v, hmem, hk.1, hseq⟩
  · obtain ⟨t, ht, hc, hs⟩ := of_maxCoveringSeq hseq
    exact .inr ⟨t, ht, hc, hs⟩

/-- Only the empty finding has no sequence. -/
theorem Finding.eq_nothing {f : Finding} (h : ∀ seq, ¬ f.HasSeq seq) : f = .nothing := by
  obtain ⟨state, cover⟩ := f
  have hstate : stateSequence state = none := by
    by_contra hne
    obtain ⟨seq, hseq⟩ := Option.ne_none_iff_exists'.1 hne
    exact h seq (.inl hseq)
  have hcover : cover = none := by
    by_contra hne
    obtain ⟨seq, hseq⟩ := Option.ne_none_iff_exists'.1 hne
    exact h seq (.inr hseq)
  cases state with
  | absent => rw [hcover, nothing]
  | tombstone | value => simp [stateSequence] at hstate

end Spec

end Midge
