import Midge.Lib.Newest
import Midge.Read.PointRead

/-!
# The versions that a read sees

The states that the versions of a key stand for, in a source or in a whole
snapshot, are a set (`statesAt`), and so are the sequences of the range tombstones
that cover the key (`coversAt`). A read is right when it finds the newest of the
one and of the other (`IsNewest`). There is only one newest state if no two
versions of a key at one sequence differ, so then all ways of looking for it
agree, and none of them runs into a conflict.

`ReadSnapshot.visitAll_newest`: merging what all the sources tell of a key finds
the newest of all.
-/

namespace Midge

open List KeyState

/-- The age of a state, as far as it is compared. -/
def age (state : KeyState) : ℕ := (stateSequence state).getD 0

/-- The state, if there is any. -/
def KeyState.present? (state : KeyState) : Option KeyState :=
  if state = .absent then none else some state

/-- The states of the versions of `key` in an SST that a snapshot sees. -/
def SstContents.statesAt (d : SstContents) (key : Key) (q : ℕ) : Set KeyState :=
  {state | ∃ v ∈ d.versions, v.key = key ∧ visibleAt q v.seq ∧ v.sstState = state ∧
    state ≠ .absent}

/-- The states of the versions of `key` in a memtable that a snapshot sees. -/
def Memtable.statesAt (m : Memtable) (key : Key) (q : ℕ) : Set KeyState :=
  {state | ∃ v ∈ m.versions, v.key = key ∧ visibleAt q v.seq ∧ versionState v = state}

/-- The sequences of the range tombstones covering `key` that a snapshot sees. -/
def coversAt (tombstones : List RangeTombstone) (key : Key) (q : ℕ) : Set ℕ :=
  {seq | ∃ t ∈ tombstones, t.visibleAt q ∧ t.Covers key ∧ t.seq = seq}

section Merge

variable {S : Set KeyState} {best : Option KeyState} {state : KeyState}

theorem checkConflict_self (message : ℕ → String) (state : KeyState) :
    checkConflict message state state = .ok () := by
  rw [checkConflict]
  cases h : VersionContent.fromState state with
  | none => rfl
  | some content => simp [resolveSameSequence]

theorem checkConflict_of_ne (message : ℕ → String) {existing : KeyState}
    (h : stateSequence state ≠ stateSequence existing) :
    checkConflict message existing state = .ok () := by
  rw [checkConflict]
  split
  next => rw [if_neg fun h' => h h'.1]
  next => rfl

/-- States that differ only if their ages do are not in conflict. -/
theorem checkConflict_of_injOn (message : ℕ → String) {existing : KeyState}
    (hS : Set.InjOn age S) (hstate : state ∈ S) (hexisting : existing ∈ S) :
    checkConflict message existing state = .ok () := by
  by_cases h : stateSequence state = stateSequence existing
  · obtain rfl := hS hstate hexisting (by rw [age, age, h])
    exact checkConflict_self message state
  · exact checkConflict_of_ne message h

/-- Merging a state into the newest one of a set. -/
theorem mergeBestState_newest (hS : Set.InjOn age (insert state S)) (hstate : state ≠ .absent)
    (hbest : IsNewest age S best) :
    ∃ best', mergeBestState best state = .ok best' ∧ IsNewest age (insert state S) best' := by
  cases best with
  | none =>
    refine ⟨some state, ?_, hbest.insert_of_lt (by simp)⟩
    rw [mergeBestState, if_neg hstate]
    rfl
  | some existing =>
    have hconflict := fun message => checkConflict_of_injOn message hS (Set.mem_insert _ _)
      (Set.mem_insert_of_mem _ hbest.mem)
    rw [mergeBestState, if_neg hstate]
    simp only [Option.elim_some, candidateWins, hconflict]
    by_cases hlt : age existing < age state
    · refine ⟨some state, ?_, hbest.insert_of_lt (by simpa using hlt.le)⟩
      simp only [show (stateSequence existing).getD 0 < (stateSequence state).getD 0 from hlt,
        decide_true, Bool.true_or]
      rfl
    · by_cases habsent : existing = .absent
      · -- An absent state counts as the oldest, so the new one has its age.
        have : state = existing := by
          refine hS (Set.mem_insert _ _) (Set.mem_insert_of_mem _ hbest.mem) ?_
          rw [habsent] at hlt ⊢
          simp only [age, stateSequence, Option.getD_none] at hlt ⊢
          omega
        exact absurd (this.trans habsent) hstate
      · refine ⟨some existing, ?_, hbest.insert_of_le (not_lt.1 hlt)⟩
        simp only [show ¬ (stateSequence existing).getD 0 < (stateSequence state).getD 0 from hlt,
          habsent, decide_false, Bool.or_false]
        rfl

/-- Merging a state into the newest one of a set, in an SST. -/
theorem mergeNewerState_newest (state : KeyState) {best : KeyState}
    (hS : state ≠ .absent → Set.InjOn age (insert state S))
    (hbest : IsNewest age S best.present?) :
    ∃ best', mergeNewerState best state = .ok best' ∧
      IsNewest age (if state = .absent then S else insert state S) best'.present? := by
  by_cases hnone : best = .absent
  · refine ⟨state, by rw [mergeNewerState, hnone]; rfl, ?_⟩
    rw [present?, if_pos hnone] at hbest
    rw [present?]
    split_ifs
    exacts [hbest, hbest.insert_of_lt (by simp)]
  · rw [present?, if_neg hnone] at hbest
    have hconflict : ∀ message, checkConflict message best state = .ok () := by
      intro message
      by_cases hstate : state = .absent
      · rw [checkConflict, hstate]
        cases VersionContent.fromState best <;> rfl
      · exact checkConflict_of_injOn message (hS hstate) (Set.mem_insert _ _)
          (Set.mem_insert_of_mem _ hbest.mem)
    have hmerge : mergeNewerState best state = .ok (if age best < age state then state else best) := by
      simp only [mergeNewerState, hconflict, hnone, false_or]
      rfl
    refine ⟨_, hmerge, ?_⟩
    by_cases hlt : age best < age state
    · have hstate : state ≠ .absent := by
        rintro rfl
        simp [age, stateSequence] at hlt
      rw [if_neg hstate, if_pos hlt, present?, if_neg hstate]
      exact hbest.insert_of_lt (by simpa using hlt.le)
    · rw [if_neg hlt, present?, if_neg hnone]
      split_ifs
      exacts [hbest, hbest.insert_of_le (not_lt.1 hlt)]

end Merge

/-! ## The sources -/

section Sources

variable {key : Key} {q : ℕ}

theorem maxCoveringSeq_newest (tombstones : List RangeTombstone) :
    IsNewest id (coversAt tombstones key q) (maxCoveringSeq tombstones key q) := by
  have hset : coversAt tombstones key q = {seq | seq ∈ (tombstones.filter fun t =>
      t.visibleAt q && decide (t.Covers key)).map RangeTombstone.seq} := by
    ext seq
    simp [coversAt, and_assoc]
  rw [hset]
  exact IsNewest.max? _

theorem Memtable.age_versionState (v : RawSstVersion) : age (versionState v) = v.seq := by
  rw [age, stateSequence_versionState, Option.getD_some]

theorem Memtable.versionState_ne (v : RawSstVersion) : versionState v ≠ .absent := by
  intro h
  have := stateSequence_versionState v
  rw [h] at this
  cases this

/-- A memtable tells the newest state of a key. -/
theorem Memtable.getRawKeyStateAt_newest (m : Memtable) :
    IsNewest age (m.statesAt key q) (m.getRawKeyStateAt key q).present? := by
  have hmax := @IsNewest.argmax _ RawSstVersion.seq
    (m.versions.filter fun v => decide (v.key = key) && visibleAt q v.seq)
  rw [getRawKeyStateAt, visibleVersion]
  generalize hv : (m.versions.filter fun v => decide (v.key = key) && visibleAt q v.seq).argmax
    RawSstVersion.seq = newest at hmax
  have hmem : ∀ v, v ∈ {a | a ∈ m.versions.filter fun v => decide (v.key = key) &&
      visibleAt q v.seq} ↔ v ∈ m.versions ∧ v.key = key ∧ visibleAt q v.seq := by
    intro v
    simp
  cases newest with
  | none =>
    refine Set.eq_empty_iff_forall_notMem.2 fun state hstate => ?_
    obtain ⟨v, hv, hk, hq, -⟩ := hstate
    have := (hmem v).2 ⟨hv, hk, hq⟩
    rw [show {a | a ∈ m.versions.filter fun v => decide (v.key = key) && visibleAt q v.seq} = ∅
      from hmax] at this
    exact this
  | some v =>
    rw [Option.elim_some, present?, if_neg (versionState_ne v)]
    obtain ⟨hv, hk, hq⟩ := (hmem v).1 hmax.1
    refine ⟨⟨v, hv, hk, hq, rfl⟩, ?_⟩
    rintro _ ⟨w, hw, hwk, hwq, rfl⟩
    rw [age_versionState, age_versionState]
    exact hmax.2 w ((hmem w).2 ⟨hw, hwk, hwq⟩)

/-- The order in which an SST holds its versions. -/
def SstContents.VersionSorted (d : SstContents) : Prop :=
  d.versions.Pairwise fun v w => v.key < w.key ∨ (v.key = w.key ∧ w.seq ≤ v.seq)

theorem age_sstState_le (v : RawSstVersion) : age v.sstState ≤ v.seq := by
  rw [RawSstVersion.sstState, age]
  split_ifs
  · exact le_rfl
  · cases v.value <;> simp [stateSequence]

/-- The states of the versions of a list. -/
def statesOf (versions : List RawSstVersion) (key : Key) (q : ℕ) : Set KeyState :=
  SstContents.statesAt ⟨versions, []⟩ key q

theorem mem_statesOf {versions : List RawSstVersion} {state : KeyState} :
    state ∈ statesOf versions key q ↔ ∃ v ∈ versions, v.key = key ∧ visibleAt q v.seq ∧
      v.sstState = state ∧ state ≠ .absent :=
  .rfl

/-- A version that does not count adds no state. -/
theorem statesOf_cons_of_not {v : RawSstVersion} {versions : List RawSstVersion}
    (h : ¬ (v.key = key ∧ visibleAt q v.seq)) :
    statesOf (v :: versions) key q = statesOf versions key q := by
  ext state
  simp only [mem_statesOf, exists_mem_cons_iff]
  exact or_iff_right fun h' => h ⟨h'.1, h'.2.1⟩

theorem statesOf_cons {v : RawSstVersion} {versions : List RawSstVersion} (hk : v.key = key)
    (hq : visibleAt q v.seq) : statesOf (v :: versions) key q =
      if v.sstState = .absent then statesOf versions key q
      else insert v.sstState (statesOf versions key q) := by
  ext state
  split_ifs with habsent
  · simp only [mem_statesOf, exists_mem_cons_iff]
    exact or_iff_right fun h' => h'.2.2.2 (h'.2.2.1 ▸ habsent)
  · simp only [Set.mem_insert_iff, mem_statesOf, exists_mem_cons_iff]
    refine or_congr_left ⟨fun h => h.2.2.1.symm, ?_⟩
    rintro rfl
    exact ⟨hk, hq, rfl, habsent⟩

/-- Merging the run of a key finds the newest state of it. -/
theorem mergeKeyRun_newest {versions : List RawSstVersion} {S : Set KeyState} {best : KeyState}
    (hsorted : SstContents.VersionSorted ⟨versions, []⟩)
    (hS : Set.InjOn age (S ∪ statesOf versions key q)) (hbest : IsNewest age S best.present?) :
    ∃ state, mergeKeyRun key q versions best = .ok state ∧
      IsNewest age (S ∪ statesOf versions key q) state.present? := by
  induction versions generalizing S best with
  | nil =>
    refine ⟨best, rfl, ?_⟩
    rwa [show statesOf [] key q = ∅ by ext; simp [mem_statesOf], Set.union_empty]
  | cons v versions ih =>
    obtain ⟨hfirst, hrest⟩ := pairwise_cons.1 hsorted
    rw [mergeKeyRun]
    split
    next hcmp =>
      have hskip := @statesOf_cons_of_not key q v versions fun h =>
        ((cmp_eq_lt_iff _ _).1 hcmp).ne h.1
      rw [hskip] at hS ⊢
      exact ih hrest hS hbest
    next hcmp =>
      -- The keys that follow are greater still.
      have hlt := (cmp_eq_gt_iff _ _).1 hcmp
      have hnone : statesOf (v :: versions) key q = ∅ := by
        refine Set.eq_empty_iff_forall_notMem.2 ?_
        rintro state ⟨w, hw, hk, -⟩
        rcases mem_cons.1 hw with rfl | hw
        · exact hlt.ne' hk
        · rcases hfirst w hw with h | ⟨h, -⟩
          exacts [(hlt.trans h).ne' hk, hlt.ne' (h.trans hk)]
      rw [hnone, Set.union_empty]
      exact ⟨best, rfl, hbest⟩
    next hcmp =>
      have hk := (cmp_eq_eq_iff _ _).1 hcmp
      split_ifs with hstop hq
      · -- All that follows is as old as `v` or older.
        refine ⟨best, rfl, ?_⟩
        rw [present?, if_neg hstop.1] at hbest ⊢
        refine hbest.union_of_le ?_
        rintro _ ⟨w, hw, hwk, -, rfl, -⟩
        have hw : w.seq ≤ v.seq := by
          rcases mem_cons.1 hw with rfl | hw
          · exact le_rfl
          · rcases hfirst w hw with h | h
            exacts [absurd (hk.trans hwk.symm) h.ne, h.2]
        exact (age_sstState_le w).trans (hw.trans hstop.2.le)
      · have hunion : S ∪ statesOf (v :: versions) key q =
            (if v.sstState = .absent then S else insert v.sstState S) ∪
              statesOf versions key q := by
          rw [statesOf_cons hk hq]
          split_ifs
          exacts [rfl, by rw [Set.union_insert, Set.insert_union]]
        rw [hunion] at hS ⊢
        obtain ⟨best', hmerge, hbest'⟩ := mergeNewerState_newest v.sstState
          (fun h => hS.mono (by rw [if_neg h]; exact Set.subset_union_left)) hbest
        obtain ⟨state, hrun, hstate⟩ := ih hrest hS hbest'
        exact ⟨state, by rw [hmerge]; exact hrun, hstate⟩
      · have hskip := @statesOf_cons_of_not key q v versions fun h => hq h.2
        rw [hskip] at hS ⊢
        exact ih hrest hS hbest

/-- An SST tells the newest state of a key. -/
theorem SstContents.getRawStateAt_newest {d : SstContents} (hsorted : d.VersionSorted)
    (hS : Set.InjOn age (d.statesAt key q)) :
    ∃ state, d.getRawStateAt key q = .ok state ∧
      IsNewest age (d.statesAt key q) state.present? := by
  have h := @mergeKeyRun_newest key q d.versions ∅ .absent hsorted (by rwa [Set.empty_union])
    (by rw [present?, if_pos rfl]; exact .empty)
  rwa [Set.empty_union] at h

end Sources

/-! ## Snapshots -/

/-- A source of a read. -/
inductive ReadSource
  | memtable (m : Memtable)
  | sst (file : FileMeta)

namespace ReadSnapshot

variable (s : ReadSnapshot) (key : Key) (q : ℕ)

/-- The sources of a snapshot, from the newest. -/
def sources : List ReadSource :=
  s.memtables.map .memtable ++ s.sstView.files.map .sst

/-- What a source tells of the key. -/
def sourceFinding : ReadSource → MidgeResult Finding
  | .memtable m => .ok (m.finding key q)
  | .sst file => s.sstFinding key q file

/-- The states of the versions of `key` in a source that a snapshot sees. -/
def sourceStates : ReadSource → Set KeyState
  | .memtable m => m.statesAt key q
  | .sst file => {state | ∃ d, s.sstReader file = .ok d ∧ state ∈ d.statesAt key q}

/-- The sequences of the range tombstones of a source covering `key` that a
    snapshot sees. -/
def sourceCovers : ReadSource → Set ℕ
  | .memtable m => coversAt m.tombstones key q
  | .sst file => {seq | ∃ d, s.sstReader file = .ok d ∧ seq ∈ coversAt d.tombstones key q}

/-- The states of all the versions of `key` that a snapshot sees. -/
def statesAt : Set KeyState := {state | ∃ source ∈ {x | x ∈ s.sources},
  state ∈ s.sourceStates key q source}

/-- The sequences of all the range tombstones covering `key` that a snapshot
    sees. -/
def coversAt : Set ℕ := {seq | ∃ source ∈ {x | x ∈ s.sources}, seq ∈ s.sourceCovers key q source}

/-- The SSTs can be read, and no two versions of a key at one sequence differ. -/
structure Sound : Prop where
  opens : ∀ file ∈ s.sstView.files, ∃ d, s.sstReader file = .ok d ∧ d.VersionSorted
  agree : ∀ key, Set.InjOn age (s.statesAt key usizeMax)

variable {s key q}

theorem findings_eq : s.findings key q = s.sources.map (s.sourceFinding key q) := by
  rw [findings, sources, map_append, map_map, map_map]
  rfl

theorem visibleAt_usizeMax (seq : ℕ) : visibleAt usizeMax seq = true := by
  simp [visibleAt]

theorem sourceStates_subset (source : ReadSource) :
    s.sourceStates key q source ⊆ s.sourceStates key usizeMax source := by
  cases source with
  | memtable m =>
    rintro state ⟨v, hv, hk, -, h⟩
    exact ⟨v, hv, hk, visibleAt_usizeMax _, h⟩
  | sst file =>
    rintro state ⟨d, hd, v, hv, hk, -, h⟩
    exact ⟨d, hd, v, hv, hk, visibleAt_usizeMax _, h⟩

theorem statesAt_subset : s.statesAt key q ⊆ s.statesAt key usizeMax := by
  rintro state ⟨source, hsource, hstate⟩
  exact ⟨source, hsource, sourceStates_subset source hstate⟩

theorem Sound.injOn (hs : s.Sound) (key : Key) (q : ℕ) : Set.InjOn age (s.statesAt key q) :=
  (hs.agree key).mono statesAt_subset

theorem absent_notMem_sourceStates {source : ReadSource} :
    .absent ∉ s.sourceStates key q source := by
  cases source with
  | memtable m =>
    rintro ⟨v, -, -, -, h⟩
    exact Memtable.versionState_ne v h
  | sst file =>
    rintro ⟨d, -, v, -, -, -, -, h⟩
    exact h rfl

/-- A source tells the newest state of the key, and the newest range tombstone. -/
theorem Sound.sourceFinding (hs : s.Sound) (key : Key) (q : ℕ) (source : ReadSource)
    (hsource : source ∈ s.sources) :
    ∃ f, s.sourceFinding key q source = .ok f ∧
      IsNewest age (s.sourceStates key q source) f.state.present? ∧
      IsNewest id (s.sourceCovers key q source) f.cover := by
  cases source with
  | memtable m => exact ⟨_, rfl, m.getRawKeyStateAt_newest, maxCoveringSeq_newest _⟩
  | sst file =>
    have hfile : file ∈ s.sstView.files := by
      rw [sources, mem_append, mem_map, mem_map] at hsource
      rcases hsource with ⟨_, -, h⟩ | ⟨file', hf, h⟩
      · cases h
      · cases h
        exact hf
    obtain ⟨d, hd, hsorted⟩ := hs.opens file hfile
    have hstates : s.sourceStates key q (.sst file) = d.statesAt key q := by
      ext state
      simp [sourceStates, hd]
    have hcovers : s.sourceCovers key q (.sst file) = Midge.coversAt d.tombstones key q := by
      ext seq
      simp [sourceCovers, hd]
    have hinj : Set.InjOn age (d.statesAt key q) := by
      rw [← hstates]
      refine (hs.injOn key q).mono ?_
      exact fun state h => ⟨_, hsource, h⟩
    obtain ⟨state, hstate, hnewest⟩ := d.getRawStateAt_newest hsorted hinj
    rw [hstates, hcovers]
    refine ⟨⟨state, maxCoveringSeq d.tombstones key q⟩, ?_, hnewest, maxCoveringSeq_newest _⟩
    simp only [ReadSnapshot.sourceFinding, sstFinding, hd, SstContents.finding]
    change (d.getRawStateAt key q >>= _) = _
    rw [hstate]
    rfl

end ReadSnapshot

theorem maxSeq_newest {C : Set ℕ} {a b : Option ℕ} (h : IsNewest id C a) :
    IsNewest id ({seq | b = some seq} ∪ C) (maxSeq a b) := by
  cases b with
  | none => cases a <;> simpa [maxSeq] using h
  | some b =>
    have hinsert : {seq | some b = some seq} ∪ C = insert b C := by
      ext seq
      simp [eq_comm]
    rw [hinsert]
    cases a with
    | none => exact h.insert_of_lt (by simp)
    | some a =>
      rcases le_total a b with hab | hab
      · rw [maxSeq, max_eq_right hab]
        exact h.insert_of_lt (by simpa using hab)
      · rw [maxSeq, max_eq_left hab]
        exact h.insert_of_le hab

/-- The newest of what some findings tell, and of what was known before. -/
theorem PointReadWalk.visitAll_newest {fs : List Finding} {w : PointReadWalk} {S : Set KeyState}
    {C : Set ℕ} (hS : Set.InjOn age ({state | ∃ f ∈ fs, f.state.present? = some state} ∪ S))
    (hbest : IsNewest age S w.bestState) (hcover : IsNewest id C w.coveringTombstoneSeq) :
    ∃ w', w.visitAll (fs.map .ok) = .ok w' ∧
      IsNewest age ({state | ∃ f ∈ fs, f.state.present? = some state} ∪ S) w'.bestState ∧
      IsNewest id ({seq | ∃ f ∈ fs, f.cover = some seq} ∪ C) w'.coveringTombstoneSeq := by
  induction fs generalizing w S C with
  | nil => exact ⟨w, rfl, by simpa using hbest, by simpa using hcover⟩
  | cons f fs ih =>
    have hsplit : ∀ {α : Type} (g : Finding → Option α) (S : Set α),
        {a | ∃ f' ∈ f :: fs, g f' = some a} ∪ S =
          {a | ∃ f' ∈ fs, g f' = some a} ∪ ({a | g f = some a} ∪ S) := by
      intro α g S
      ext a
      simp only [Set.mem_union, Set.mem_ofPred_eq, exists_mem_cons_iff]
      rw [or_assoc]
      exact or_left_comm
    rw [hsplit] at hS ⊢
    rw [hsplit]
    obtain ⟨best, hmerge, hnewest⟩ : ∃ best, mergeBestState w.bestState f.state = .ok best ∧
        IsNewest age ({state | f.state.present? = some state} ∪ S) best := by
      by_cases habsent : f.state = .absent
      · refine ⟨w.bestState, by rw [habsent, mergeBestState_absent], ?_⟩
        simpa [habsent, present?] using hbest
      · have hinsert : {state | f.state.present? = some state} ∪ S = insert f.state S := by
          ext state
          simp [present?, habsent, eq_comm]
        rw [hinsert] at hS ⊢
        exact mergeBestState_newest (hS.mono Set.subset_union_right) habsent hbest
    obtain ⟨w', hvisit, h⟩ := @ih ⟨best, maxSeq w.coveringTombstoneSeq f.cover⟩ _ _ hS hnewest
      (maxSeq_newest hcover)
    refine ⟨w', visitAll_cons.2 ⟨f, rfl, _, ?_, hvisit⟩, h⟩
    rw [visit, hmerge]
    rfl

namespace ReadSnapshot

variable {s : ReadSnapshot} {key : Key} {q : ℕ}

/-- Merging what all the sources tell finds the newest state of the key and the
    newest range tombstone. -/
theorem Sound.visitAll_newest (hs : s.Sound) (key : Key) (q : ℕ) :
    ∃ w', PointReadWalk.visitAll {} (s.findings key q) = .ok w' ∧
      IsNewest age (s.statesAt key q) w'.bestState ∧
      IsNewest id (s.coversAt key q) w'.coveringTombstoneSeq := by
  classical
  choose! finding hok hstate hcover using hs.sourceFinding key q
  have hfindings : s.findings key q = (s.sources.map finding).map .ok := by
    rw [findings_eq, map_map]
    exact map_congr_left hok
  have hsubset : {state | ∃ f ∈ s.sources.map finding, f.state.present? = some state} =
      {state | ∃ source ∈ {x | x ∈ s.sources}, (finding source).state.present? = some state} := by
    ext state
    simp
  have hsubset' : {seq | ∃ f ∈ s.sources.map finding, f.cover = some seq} =
      {seq | ∃ source ∈ {x | x ∈ s.sources}, (finding source).cover = some seq} := by
    ext seq
    simp
  have hinj : Set.InjOn age
      {state | ∃ source ∈ {x | x ∈ s.sources}, (finding source).state.present? = some state} := by
    refine (hs.injOn key q).mono ?_
    rintro state ⟨source, hsource, h⟩
    have := hstate source hsource
    rw [h] at this
    exact ⟨source, hsource, this.mem⟩
  obtain ⟨w', hvisit, hbest, hnewest⟩ := @PointReadWalk.visitAll_newest (s.sources.map finding) {}
    ∅ ∅ (by rwa [hsubset, Set.union_empty]) .empty .empty
  rw [hsubset, Set.union_empty] at hbest
  rw [hsubset', Set.union_empty] at hnewest
  exact ⟨w', by rw [hfindings, hvisit], IsNewest.biUnion hstate hbest,
    IsNewest.biUnion hcover hnewest⟩

end ReadSnapshot

end Midge
