import Midge.Commit.Reads

/-!
# What applying staged transactions changes

An applied operation adds its sequence to the history of the keys that it touches, and
its value, or that there is none, takes the place of theirs (`applyOp`). So do several
operations, one after the other: the last one that touches a key decides (`Applied`).
The overlay of the staged transactions tells just that, before they are applied.
-/

namespace Midge

open List TransactionApplyOp Memtable

/-! ## Growing memtables -/

/-- The second memtable is the first one with new data at a sequence. -/
structure Memtable.GrowsAt (m m' : Memtable) (seq : ℕ) : Prop where
  versions : ∀ v ∈ m.versions, v ∈ m'.versions
  tombstones : ∀ t ∈ m.tombstones, t ∈ m'.tombstones
  newVersions : ∀ v ∈ m'.versions, v ∈ m.versions ∨ v.seq = seq
  newTombstones : ∀ t ∈ m'.tombstones, t ∈ m.tombstones ∨ t.seq = seq ∧ t.start < t.stop

variable {state : KeyState}

namespace ReadSnapshot

variable (s : ReadSnapshot)

/-- The snapshot with another active memtable. -/
def withMemtable (m : Memtable) : ReadSnapshot := { s with memtable := m }

/-- All the sources but the active memtable. -/
def olderSources : List ReadSource :=
  s.immutableMemtables.reverse.map .memtable ++ s.sstView.files.map .sst

/-- The states of the versions in the older sources. -/
def olderStates (k : Key) : Set KeyState :=
  {state | ∃ source ∈ s.olderSources, state ∈ s.sourceStates k usizeMax source}

/-- The sequences of the range tombstones in the older sources. -/
def olderCovers (k : Key) : Set ℕ :=
  {seq | ∃ source ∈ s.olderSources, seq ∈ s.sourceCovers k usizeMax source}

theorem statesAt_withMemtable (m : Memtable) (k : Key) :
    (s.withMemtable m).statesAt k usizeMax = m.statesAt k usizeMax ∪ s.olderStates k := by
  ext state
  refine (exists_mem_cons_iff _ _ _).trans <|
    or_congr_right (exists_congr fun source => and_congr_right fun _ => ?_)
  cases source <;> rfl

theorem coversAt_withMemtable (m : Memtable) (k : Key) :
    (s.withMemtable m).coversAt k usizeMax =
      Midge.coversAt m.tombstones k usizeMax ∪ s.olderCovers k := by
  ext seq
  refine (exists_mem_cons_iff _ _ _).trans <|
    or_congr_right (exists_congr fun source => and_congr_right fun _ => ?_)
  cases source <;> rfl

theorem statesAt_eq_union (k : Key) :
    s.statesAt k usizeMax = s.memtable.statesAt k usizeMax ∪ s.olderStates k :=
  s.statesAt_withMemtable s.memtable k

theorem coversAt_eq_union (k : Key) :
    s.coversAt k usizeMax = Midge.coversAt s.memtable.tombstones k usizeMax ∪ s.olderCovers k :=
  s.coversAt_withMemtable s.memtable k

variable {s} {bound seq : ℕ} {m : Memtable} {k : Key}

theorem WellFormed.age_le (h : s.WellFormed bound) (hstate : state ∈ s.statesAt k usizeMax) :
    age state ≤ bound := by
  have hne : state ≠ .absent := fun habsent => absent_notMem_statesAt (habsent ▸ hstate)
  obtain ⟨x, hx⟩ := PointReadWalk.exists_sequence hne
  rw [PointReadWalk.age_eq hx]
  exact h.le_bound (.inl ⟨state, hstate, hx⟩)

theorem contains_withMemtable {d : SstContents} (h : (s.withMemtable m).Contains d) :
    d = m.contents ∨ s.Contains d := by
  rcases h with ⟨m', hm', rfl⟩ | hfile
  · rcases mem_cons.1 hm' with rfl | hm'
    exacts [.inl rfl, .inr (.inl ⟨m', mem_cons_of_mem _ hm', rfl⟩)]
  · exact .inr (.inr hfile)

/-- A state of the grown memtable is an old one, or that of the new version. -/
theorem mem_statesAt_of_growsAt (hgrows : s.memtable.GrowsAt m seq)
    (h : state ∈ (s.withMemtable m).statesAt k usizeMax) :
    state ∈ s.statesAt k usizeMax ∨
      ∃ v ∈ m.versions, v.key = k ∧ v.seq = seq ∧ Memtable.versionState v = state := by
  rw [statesAt_withMemtable] at h
  rw [statesAt_eq_union]
  rcases h with ⟨v, hv, hk, hq, hstate⟩ | h
  · rcases hgrows.newVersions v hv with hold | hnew
    exacts [.inl (.inl ⟨v, hold, hk, hq, hstate⟩), .inr ⟨v, hv, hk, hnew, hstate⟩]
  · exact .inl (.inr h)

/-- New data in the active memtable, newer than all there is, keeps the order of the
    sources. -/
theorem WellFormed.withMemtable (h : s.WellFormed bound) (hlt : bound < seq)
    (hgrows : s.memtable.GrowsAt m seq) : (s.withMemtable m).WellFormed seq := by
  obtain ⟨files, hc, ho⟩ := h.catalogued
  have hactive : s.Contains s.memtable.contents := .inl ⟨_, mem_cons_self, rfl⟩
  have hnewer : ∀ d, s.Contains d → NewerThan s.memtable.contents d → NewerThan m.contents d := by
    rintro d hd hnewer k x y (⟨v, hv, hk, rfl⟩ | ⟨t, ht, hcovers, rfl⟩) hy
    · rcases hgrows.newVersions v hv with hold | hnew
      · exact hnewer k _ y (.inl ⟨v, hold, hk, rfl⟩) hy
      · exact hnew ▸ (h.bounded d hd y (SstContents.seq_mem_of_hasSeqAt hy)).trans_lt hlt
    · rcases hgrows.newTombstones t ht with hold | ⟨hnew, -⟩
      · exact hnewer k _ y (.inr ⟨t, hold, hcovers, rfl⟩) hy
      · exact hnew ▸ (h.bounded d hd y (SstContents.seq_mem_of_hasSeqAt hy)).trans_lt hlt
  have hsequences : ∀ x ∈ m.contents.sequences, x ∈ s.memtable.contents.sequences ∨ x = seq := by
    intro x hx
    rcases mem_append.1 hx with hx | hx
    · obtain ⟨v, hv, rfl⟩ := mem_map.1 hx
      exact (hgrows.newVersions v hv).imp_left fun hold =>
        mem_append_left _ (mem_map_of_mem hold)
    · obtain ⟨t, ht, rfl⟩ := mem_map.1 hx
      exact (hgrows.newTombstones t ht).imp (fun hold =>
        mem_append_right _ (mem_map_of_mem hold)) And.left
  refine ⟨⟨files, ⟨hc.view, hc.described, hc.memory⟩, ?_⟩, ⟨h.sound.opens, fun k => ?_⟩, ?_, ?_⟩
  · have hpairs := pairwise_cons.1 ho.memtables
    refine ⟨pairwise_cons.2 ⟨fun m' hm' => ?_, hpairs.2⟩, fun m' hm' file hfile d hd => ?_,
      ho.levels⟩
    · exact hnewer _ (.inl ⟨m', mem_cons_of_mem _ hm', rfl⟩) (hpairs.1 m' hm')
    · have hin : file ∈ s.sstView.files := by
        rw [hc.view]
        exact SstReadView.mem_files_fromShared.2 hfile
      rcases mem_cons.1 hm' with rfl | hm'
      · exact hnewer d (.inr ⟨file, hin, hd⟩)
          (ho.flushed s.memtable mem_cons_self file hfile d hd)
      · exact ho.flushed m' (mem_cons_of_mem _ hm') file hfile d hd
  · -- Two states of one age are both old, or both that of the new version.
    intro a ha b hb hage
    have hold : ∀ state ∈ s.statesAt k usizeMax, age state < seq := fun state hstate =>
      (h.age_le hstate).trans_lt hlt
    rcases mem_statesAt_of_growsAt hgrows ha with ha | ⟨v, hv, hvk, hvseq, rfl⟩
    all_goals rcases mem_statesAt_of_growsAt hgrows hb with hb | ⟨w, hw, hwk, hwseq, rfl⟩
    · exact h.sound.agree k ha hb hage
    · have := hold a ha
      rw [hage, age_versionState] at this
      omega
    · have := hold b hb
      rw [← hage, age_versionState] at this
      omega
    · rw [m.unique v hv w hw (hvk.trans hwk.symm) (hvseq.trans hwseq.symm)]
  · intro d hd
    rcases contains_withMemtable hd with rfl | hd
    · intro t ht
      exact (hgrows.newTombstones t ht).elim (h.ranges _ hactive t) And.right
    · exact h.ranges d hd
  · intro d hd x hx
    rcases contains_withMemtable hd with rfl | hd
    · rcases hsequences x hx with hx | rfl
      exacts [(h.bounded _ hactive x hx).trans hlt.le, le_rfl]
    · exact (h.bounded d hd x hx).trans hlt.le

variable {s' : ReadSnapshot}

theorem hasSeqAt_congr (hstates : s'.statesAt k usizeMax = s.statesAt k usizeMax)
    (hcovers : s'.coversAt k usizeMax = s.coversAt k usizeMax) (x : ℕ) :
    s'.HasSeqAt k x ↔ s.HasSeqAt k x := by
  rw [HasSeqAt, HasSeqAt, hstates, hcovers]

theorem liveAt_congr (hstates : s'.statesAt k usizeMax = s.statesAt k usizeMax)
    (hcovers : s'.coversAt k usizeMax = s.coversAt k usizeMax) (expiration : Option ℕ) :
    s'.LiveAt k expiration ↔ s.LiveAt k expiration := by
  rw [LiveAt, LiveAt, hstates, hcovers]

theorem hasSeqAt_insert_state
    (hstates : s'.statesAt k usizeMax = insert state (s.statesAt k usizeMax))
    (hcovers : s'.coversAt k usizeMax = s.coversAt k usizeMax)
    (hseq : stateSequence state = some seq) (x : ℕ) :
    s'.HasSeqAt k x ↔ s.HasSeqAt k x ∨ seq = x := by
  rw [HasSeqAt, HasSeqAt, hstates, hcovers]
  simp only [Set.mem_insert_iff, exists_eq_or_imp, hseq, Option.some.injEq]
  rw [or_assoc, or_comm]

/-- The newest version of all is the value of its key. -/
theorem WellFormed.liveAt_insert_state (h : s.WellFormed bound) (hlt : bound < seq)
    (hstates : s'.statesAt k usizeMax = insert state (s.statesAt k usizeMax))
    (hcovers : s'.coversAt k usizeMax = s.coversAt k usizeMax)
    (hseq : stateSequence state = some seq) (expiration : Option ℕ) :
    s'.LiveAt k expiration ↔ state.validationValue = .present expiration := by
  have hage := PointReadWalk.age_eq hseq
  have hnewest : IsNewest age (s'.statesAt k usizeMax) (some state) := by
    rw [hstates]
    refine ⟨Set.mem_insert _ _, fun b hb => ?_⟩
    rcases Set.mem_insert_iff.1 hb with rfl | hb
    exacts [le_rfl, hage ▸ (h.age_le hb).trans hlt.le]
  rw [validationValue_eq_present]
  constructor
  · rintro ⟨value, x, opType, hvalue, -⟩
    refine ⟨value, x, opType, ?_⟩
    have hmem := hvalue.mem
    rw [hstates, Set.mem_insert_iff] at hmem
    refine (hmem.resolve_right fun hold => ?_).symm
    have hle := hvalue.2 state hnewest.mem
    have := h.age_le hold
    omega
  · rintro ⟨value, x, opType, rfl⟩
    refine ⟨value, x, opType, hnewest, fun c hc => ?_⟩
    rw [hcovers] at hc
    obtain rfl : x = seq := Option.some.inj hseq
    exact (h.le_bound (.inr hc)).trans_lt hlt

theorem hasSeqAt_insert_cover (hstates : s'.statesAt k usizeMax = s.statesAt k usizeMax)
    (hcovers : s'.coversAt k usizeMax = insert seq (s.coversAt k usizeMax)) (x : ℕ) :
    s'.HasSeqAt k x ↔ s.HasSeqAt k x ∨ seq = x := by
  rw [HasSeqAt, HasSeqAt, hstates, hcovers, Set.mem_insert_iff, or_assoc, @eq_comm _ x seq]
  exact or_congr_right or_comm

/-- The newest range tombstone of all leaves no value. -/
theorem WellFormed.not_liveAt_insert_cover (h : s.WellFormed bound) (hlt : bound < seq)
    (hstates : s'.statesAt k usizeMax = s.statesAt k usizeMax)
    (hcovers : s'.coversAt k usizeMax = insert seq (s.coversAt k usizeMax))
    (expiration : Option ℕ) : ¬s'.LiveAt k expiration := by
  rintro ⟨value, x, opType, hvalue, hcover⟩
  have hx := hvalue.mem
  rw [hstates] at hx
  have hle : x ≤ bound := h.age_le hx
  have hge := hcover seq (by rw [hcovers]; exact Set.mem_insert _ _)
  omega

theorem statesAt_cons {v : RawSstVersion} (hversions : m.versions = v :: s.memtable.versions)
    (k : Key) : (s.withMemtable m).statesAt k usizeMax =
      {state | v.key = k ∧ Memtable.versionState v = state} ∪ s.statesAt k usizeMax := by
  have hm : m.statesAt k usizeMax = {state | v.key = k ∧ Memtable.versionState v = state} ∪
      s.memtable.statesAt k usizeMax := by
    ext state
    simp [Memtable.statesAt, hversions, visibleAt_usizeMax]
  rw [statesAt_withMemtable, statesAt_eq_union, hm, Set.union_assoc]

theorem statesAt_of_versions (hversions : m.versions = s.memtable.versions) (k : Key) :
    (s.withMemtable m).statesAt k usizeMax = s.statesAt k usizeMax := by
  rw [statesAt_withMemtable, statesAt_eq_union, Memtable.statesAt, hversions]
  rfl

theorem coversAt_append {t : RangeTombstone}
    (htombstones : m.tombstones = s.memtable.tombstones ++ [t]) (k : Key) :
    (s.withMemtable m).coversAt k usizeMax =
      {x | t.Covers k ∧ t.seq = x} ∪ s.coversAt k usizeMax := by
  have hm : Midge.coversAt m.tombstones k usizeMax = {x | t.Covers k ∧ t.seq = x} ∪
      Midge.coversAt s.memtable.tombstones k usizeMax := by
    ext x
    simp [Midge.coversAt, htombstones, RangeTombstone.visibleAt, or_and_right, exists_or, or_comm]
  rw [coversAt_withMemtable, coversAt_eq_union, hm, Set.union_assoc]

theorem coversAt_of_tombstones (htombstones : m.tombstones = s.memtable.tombstones) (k : Key) :
    (s.withMemtable m).coversAt k usizeMax = s.coversAt k usizeMax := by
  rw [coversAt_withMemtable, coversAt_eq_union, htombstones]

end ReadSnapshot

/-! ## Operations -/

namespace TransactionApplyOp

/-- The operation writes the key. -/
def Touches (cfId : ℕ) (k : Key) : TransactionApplyOp → Prop
  | .put family key _ _ _ | .delete family key _ => family = cfId ∧ key = k
  | .deleteRange family startKey endKey _ => family = cfId ∧ startKey ≤ k ∧ k < endKey

instance (cfId : ℕ) (k : Key) : DecidablePred (Touches cfId k) := fun op => by
  cases op <;> exact inferInstanceAs (Decidable (_ ∧ _))

theorem cfId_of_touches (op : TransactionApplyOp) {cfId : ℕ} {k : Key}
    (h : op.Touches cfId k) : op.cfId = cfId := by
  cases op <;> exact h.1

/-- What the operation leaves of a key that it writes. -/
def leaves : TransactionApplyOp → ValidationValue
  | .put _ _ _ expiration _ => .present expiration
  | _ => .absent

/-- The last operation that writes the key. -/
def lastTouching (cfId : ℕ) (k : Key) (ops : List TransactionApplyOp) :
    Option TransactionApplyOp :=
  ops.reverse.find? (Touches cfId k)

end TransactionApplyOp

/-- What an operation makes of a snapshot of its family. -/
structure ReadSnapshot.Steps (s : ReadSnapshot) (op : TransactionApplyOp) (s' : ReadSnapshot) :
    Prop where
  wellFormed : s'.WellFormed op.sequence
  hasSeqAt : ∀ k x, s'.HasSeqAt k x ↔ s.HasSeqAt k x ∨ (op.Touches op.cfId k ∧ op.sequence = x)
  liveAt : ∀ k expiration, s'.LiveAt k expiration ↔
    if op.Touches op.cfId k then op.leaves = .present expiration else s.LiveAt k expiration

namespace ReadSnapshot

variable {s : ReadSnapshot} {bound : ℕ} {m : Memtable} {op : TransactionApplyOp}

/-- A new version. -/
theorem WellFormed.steps_insert (h : s.WellFormed bound) (hlt : bound < op.sequence)
    {v : RawSstVersion} (hversions : m.versions = v :: s.memtable.versions)
    (htombstones : m.tombstones = s.memtable.tombstones) (hseq : v.seq = op.sequence)
    (htouches : ∀ k, op.Touches op.cfId k ↔ v.key = k)
    (hleaves : (Memtable.versionState v).validationValue = op.leaves) :
    s.Steps op (s.withMemtable m) := by
  have hgrows : s.memtable.GrowsAt m op.sequence := by
    constructor
    · intro w hw
      rw [hversions]
      exact mem_cons_of_mem _ hw
    · exact fun t ht => htombstones ▸ ht
    · intro w hw
      rw [hversions] at hw
      rcases mem_cons.1 hw with rfl | hw
      exacts [.inr hseq, .inl hw]
    · exact fun t ht => .inl (htombstones ▸ ht)
  have hcovers := coversAt_of_tombstones htombstones
  have hstate : stateSequence (versionState v) = some op.sequence := by
    rw [stateSequence_versionState, hseq]
  have hkey : ∀ k, v.key = k → (s.withMemtable m).statesAt k usizeMax =
      insert (versionState v) (s.statesAt k usizeMax) := by
    intro k hk
    ext state
    simp [statesAt_cons hversions, hk, eq_comm]
  have hother : ∀ k, v.key ≠ k → (s.withMemtable m).statesAt k usizeMax =
      s.statesAt k usizeMax := by
    intro k hk
    simp [statesAt_cons hversions, hk]
  refine ⟨h.withMemtable hlt hgrows, fun k x => ?_, fun k expiration => ?_⟩
  all_goals
    simp only [htouches]
    by_cases hk : v.key = k
  · rw [hasSeqAt_insert_state (hkey k hk) (hcovers k) hstate]
    simp [hk]
  · rw [hasSeqAt_congr (hother k hk) (hcovers k)]
    simp [hk]
  · rw [if_pos hk, h.liveAt_insert_state hlt (hkey k hk) (hcovers k) hstate, hleaves]
  · rw [if_neg hk, liveAt_congr (hother k hk) (hcovers k)]

/-- A new range tombstone. -/
theorem WellFormed.steps_range (h : s.WellFormed bound) (hlt : bound < op.sequence)
    {t : RangeTombstone} (hversions : m.versions = s.memtable.versions)
    (htombstones : m.tombstones = s.memtable.tombstones ++ [t]) (hseq : t.seq = op.sequence)
    (hproper : t.start < t.stop) (htouches : ∀ k, op.Touches op.cfId k ↔ t.Covers k)
    (hleaves : op.leaves = .absent) : s.Steps op (s.withMemtable m) := by
  have hgrows : s.memtable.GrowsAt m op.sequence := by
    constructor
    · exact fun v hv => hversions ▸ hv
    · intro u hu
      rw [htombstones]
      exact mem_append_left _ hu
    · exact fun v hv => .inl (hversions ▸ hv)
    · intro u hu
      rw [htombstones, mem_append, mem_singleton] at hu
      rcases hu with hu | rfl
      exacts [.inl hu, .inr ⟨hseq, hproper⟩]
  have hstates := statesAt_of_versions hversions
  have hkey : ∀ k, t.Covers k → (s.withMemtable m).coversAt k usizeMax =
      insert op.sequence (s.coversAt k usizeMax) := by
    intro k hk
    ext x
    simp [coversAt_append htombstones, hk, hseq, eq_comm]
  have hother : ∀ k, ¬t.Covers k → (s.withMemtable m).coversAt k usizeMax =
      s.coversAt k usizeMax := by
    intro k hk
    simp [coversAt_append htombstones, hk]
  refine ⟨h.withMemtable hlt hgrows, fun k x => ?_, fun k expiration => ?_⟩
  all_goals
    simp only [htouches]
    by_cases hk : t.Covers k
  · rw [hasSeqAt_insert_cover (hstates k) (hkey k hk)]
    simp [hk]
  · rw [hasSeqAt_congr (hstates k) (hother k hk)]
    simp [hk]
  · rw [if_pos hk, hleaves]
    exact iff_of_false (h.not_liveAt_insert_cover hlt (hstates k) (hkey k hk) expiration) (by simp)
  · rw [if_neg hk, liveAt_congr (hstates k) (hother k hk)]

end ReadSnapshot

namespace RuntimeState

/-- The history of a key of a family. -/
def HasSeqAt (state : RuntimeState) (cfId : ℕ) (k : Key) (seq : ℕ) : Prop :=
  ∃ s, state.latestSequenceSnapshot cfId = some s ∧ s.HasSeqAt k seq

/-- The value of a key of a family. -/
def LiveAt (state : RuntimeState) (cfId : ℕ) (k : Key) (expiration : Option ℕ) : Prop :=
  ∃ s, state.latestSequenceSnapshot cfId = some s ∧ s.LiveAt k expiration

/-- The families are well formed. -/
def WellFormed (state : RuntimeState) (bound : ℕ) : Prop :=
  ∀ cfId s, state.latestSequenceSnapshot cfId = some s → s.WellFormed bound

variable {state : RuntimeState} {bound : ℕ} {op : TransactionApplyOp}

theorem latestSequenceSnapshot_setFamily {cfId : ℕ} {family : ColumnFamilyState}
    (h : state.columnFamilies cfId = some family) (m : Memtable) (cfId' : ℕ) :
    (state.setFamily cfId { family with memtable := m }).latestSequenceSnapshot cfId' =
      if cfId' = cfId then (state.latestSequenceSnapshot cfId').map (·.withMemtable m)
      else state.latestSequenceSnapshot cfId' := by
  by_cases hcf : cfId' = cfId
  · subst hcf
    simp [latestSequenceSnapshot, setFamily, h, ReadSnapshot.withMemtable]
  · simp [latestSequenceSnapshot, setFamily, hcf]

theorem insert_of_lt {m : Memtable} {v : RawSstVersion} (h : ∀ w ∈ m.versions, w.seq < v.seq) :
    ∃ m', m.insert v = .ok m' ∧ m'.versions = v :: m.versions ∧ m'.tombstones = m.tombstones := by
  have hfresh : ∀ w ∈ m.versions, w.key = v.key → w.seq ≠ v.seq := fun w hw _ => (h w hw).ne
  exact ⟨_, dif_pos hfresh, rfl, rfl⟩

/-- An operation succeeds. It changes the active memtable of its family only. -/
theorem applyTransactionOpToMemtable_eq (h : state.WellFormed bound) (hlt : bound < op.sequence)
    (hproper : op.Proper) {family : ColumnFamilyState}
    (hfamily : state.columnFamilies op.cfId = some family) :
    ∃ m state', state.applyTransactionOpToMemtable op = .ok state' ∧
      (∀ cfId, state'.latestSequenceSnapshot cfId =
        (state.setFamily op.cfId { family with memtable := m }).latestSequenceSnapshot cfId) ∧
      state'.observedTimeMillis = state.observedTimeMillis ∧
      (∀ s, state.latestSequenceSnapshot op.cfId = some s → s.Steps op (s.withMemtable m)) := by
  have hs : ∃ s, state.latestSequenceSnapshot op.cfId = some s ∧ s.memtable = family.memtable :=
    ⟨_, by rw [latestSequenceSnapshot, hfamily]; rfl, rfl⟩
  obtain ⟨s, hs, hmemtable⟩ := hs
  have hwf := h _ s hs
  have holder : ∀ w ∈ family.memtable.versions, w.seq < op.sequence := by
    intro w hw
    refine (hwf.bounded s.memtable.contents (.inl ⟨_, List.mem_cons_self, rfl⟩) w.seq ?_).trans_lt
      hlt
    rw [hmemtable]
    exact List.mem_append_left _ (List.mem_map_of_mem hw)
  have hsteps : ∀ m, s.Steps op (s.withMemtable m) →
      ∀ s', state.latestSequenceSnapshot op.cfId = some s' → s'.Steps op (s'.withMemtable m) := by
    intro m hm s' hs'
    rw [hs, Option.some.injEq] at hs'
    exact hs' ▸ hm
  have hinsert : ∀ v : RawSstVersion, v.seq = op.sequence →
      (∀ k, op.Touches op.cfId k ↔ v.key = k) → (versionState v).validationValue = op.leaves →
      ∃ m, family.memtable.insert v = .ok m ∧ s.Steps op (s.withMemtable m) := by
    intro v hseq htouches hleaves
    obtain ⟨m, hm, hversions, htombstones⟩ := insert_of_lt fun w hw => (holder w hw).trans_eq hseq.symm
    rw [← hmemtable] at hversions htombstones
    exact ⟨m, hm, hwf.steps_insert hlt hversions htombstones hseq htouches hleaves⟩
  cases op with
  | put cfId key value expiration seq =>
    obtain ⟨m, hm, hstep⟩ := hinsert ⟨key, seq, false, some value, expiration⟩ rfl
      (fun k => by simp [Touches, TransactionApplyOp.cfId]) rfl
    refine ⟨m, _, ?_, fun _ => rfl, rfl, hsteps m hstep⟩
    rw [applyTransactionOpToMemtable, applyToMemtable, show state.columnFamilies cfId = _ from hfamily]
    simp only [Option.elim_some, putBytesWithSeq, hm]
    rfl
  | delete cfId key seq =>
    obtain ⟨m, hm, hstep⟩ := hinsert ⟨key, seq, true, none, none⟩ rfl
      (fun k => by simp [Touches, TransactionApplyOp.cfId]) rfl
    refine ⟨m, _, ?_, fun _ => rfl, rfl, hsteps m hstep⟩
    rw [applyTransactionOpToMemtable, applyToMemtable, show state.columnFamilies cfId = _ from hfamily]
    simp only [Option.elim_none, deleteBytesWithSeq, hm]
    rfl
  | deleteRange cfId startKey endKey seq =>
    have hlt' : startKey < endKey := hproper
    have happly : state.applyTransactionOpToMemtable (.deleteRange cfId startKey endKey seq) =
        .ok ((state.setFamily cfId { family with
          memtable := family.memtable.deleteRangeWithSeq startKey endKey seq }).recordDeleteRange
            cfId startKey endKey seq) := by
      rw [applyTransactionOpToMemtable, applyDeleteRangeToMemtable,
        show state.columnFamilies cfId = _ from hfamily]
    refine ⟨family.memtable.deleteRangeWithSeq startKey endKey seq, _, happly, fun _ => rfl,
      rfl, hsteps _ ?_⟩
    rw [Memtable.deleteRangeWithSeq, if_neg hlt'.not_ge, ← hmemtable]
    exact hwf.steps_range hlt rfl rfl rfl hlt' (fun k => by
      simp [Touches, TransactionApplyOp.cfId, RangeTombstone.Covers]) rfl

end RuntimeState

/-! ## Runs -/

/-- What operations make of the state, one after the other. -/
structure Applied (state : RuntimeState) (ops : List TransactionApplyOp) (bound : ℕ)
    (state' : RuntimeState) : Prop where
  wellFormed : state'.WellFormed bound
  hasSeqAt : ∀ cfId k x, state'.HasSeqAt cfId k x ↔
    state.HasSeqAt cfId k x ∨ ∃ op ∈ ops, op.Touches cfId k ∧ op.sequence = x
  liveAt : ∀ cfId k expiration, state'.LiveAt cfId k expiration ↔
    (lastTouching cfId k ops).elim (state.LiveAt cfId k expiration)
      (·.leaves = .present expiration)
  families : ∀ cfId, (state'.latestSequenceSnapshot cfId).isSome =
    (state.latestSequenceSnapshot cfId).isSome
  time : state'.observedTimeMillis = state.observedTimeMillis

namespace Applied

variable {state state₁ state₂ : RuntimeState} {ops ops₁ ops₂ : List TransactionApplyOp}
  {op : TransactionApplyOp} {bound bound₁ bound₂ : ℕ}

theorem refl (h : state.WellFormed bound) : Applied state [] bound state :=
  ⟨h, by simp, fun _ _ _ => Iff.rfl, fun _ => rfl, rfl⟩

theorem trans (h₁ : Applied state ops₁ bound₁ state₁) (h₂ : Applied state₁ ops₂ bound₂ state₂) :
    Applied state (ops₁ ++ ops₂) bound₂ state₂ := by
  refine ⟨h₂.wellFormed, fun cfId k x => ?_, fun cfId k expiration => ?_,
    fun cfId => (h₂.families cfId).trans (h₁.families cfId), h₂.time.trans h₁.time⟩
  · rw [h₂.hasSeqAt, h₁.hasSeqAt, or_assoc]
    simp only [mem_append, or_and_right, exists_or]
  · rw [h₂.liveAt, lastTouching, lastTouching,
      reverse_append, find?_append]
    cases ops₂.reverse.find? (TransactionApplyOp.Touches cfId k) with
    | none => exact h₁.liveAt cfId k expiration
    | some op => rfl

end Applied

theorem ReadSnapshot.WellFormed.mono {s : ReadSnapshot} {bound bound' : ℕ}
    (h : s.WellFormed bound) (hle : bound ≤ bound') : s.WellFormed bound' :=
  ⟨h.catalogued, h.sound, h.ranges, fun d hd seq hseq => (h.bounded d hd seq hseq).trans hle⟩

namespace RuntimeState

variable {state : RuntimeState} {ops : List TransactionApplyOp} {op : TransactionApplyOp}
  {bound : ℕ}

/-- One operation. -/
theorem applied_of_lt (h : state.WellFormed bound) (hlt : bound < op.sequence)
    (hproper : op.Proper) (hfamily : (state.latestSequenceSnapshot op.cfId).isSome) :
    ∃ state', state.applyTransactionOpToMemtable op = .ok state' ∧
      Applied state [op] op.sequence state' := by
  rw [latestSequenceSnapshot, Option.isSome_map, Option.isSome_iff_exists] at hfamily
  obtain ⟨family, hfamily⟩ := hfamily
  obtain ⟨m, state', happly, hsnapshot, htime, hsteps⟩ :=
    applyTransactionOpToMemtable_eq h hlt hproper hfamily
  simp only [latestSequenceSnapshot_setFamily hfamily] at hsnapshot
  have hsome : ∃ s, state.latestSequenceSnapshot op.cfId = some s :=
    ⟨_, by rw [latestSequenceSnapshot, hfamily]; rfl⟩
  obtain ⟨s, hs⟩ := hsome
  have hstep := hsteps s hs
  have hown : state'.latestSequenceSnapshot op.cfId = some (s.withMemtable m) := by
    rw [hsnapshot, if_pos rfl, hs, Option.map_some]
  have hother : ∀ cfId ≠ op.cfId,
      state'.latestSequenceSnapshot cfId = state.latestSequenceSnapshot cfId := fun cfId hcf => by
    rw [hsnapshot, if_neg hcf]
  refine ⟨state', happly, fun cfId s' hs' => ?_, fun cfId k x => ?_, fun cfId k expiration => ?_,
    fun cfId => ?_, htime⟩
  all_goals by_cases hcf : cfId = op.cfId
  · subst hcf
    rw [hown, Option.some.injEq] at hs'
    exact hs' ▸ hstep.wellFormed
  · exact (h cfId s' (hother cfId hcf ▸ hs')).mono hlt.le
  · subst hcf
    simp [HasSeqAt, hown, hs, hstep.hasSeqAt]
  · have hno : ¬op.Touches cfId k := fun htouches => hcf (op.cfId_of_touches htouches).symm
    simp [HasSeqAt, hother cfId hcf, hno]
  · subst hcf
    by_cases htouches : op.Touches op.cfId k <;>
      simp [LiveAt, hown, hs, hstep.liveAt, lastTouching, htouches]
  · have hno : ¬op.Touches cfId k := fun htouches => hcf (op.cfId_of_touches htouches).symm
    simp [LiveAt, hother cfId hcf, lastTouching, hno]
  · simp [hcf, hown, hs]
  · rw [hother cfId hcf]

/-- Operations with growing sequences. -/
theorem applyTransactionOps_ok (h : state.WellFormed bound)
    (hgrowing : ops.Pairwise (·.sequence < ·.sequence)) (hlt : ∀ op ∈ ops, bound < op.sequence)
    (hproper : ∀ op ∈ ops, op.Proper)
    (hfamily : ∀ op ∈ ops, (state.latestSequenceSnapshot op.cfId).isSome) :
    ∃ state' bound', state.applyTransactionOps ops = .ok state' ∧ Applied state ops bound' state' ∧
      ∀ x, bound < x → (∀ op ∈ ops, op.sequence < x) → bound' < x := by
  induction ops generalizing state bound with
  | nil => exact ⟨state, bound, rfl, .refl h, fun x hx _ => hx⟩
  | cons op ops ih =>
    obtain ⟨hhead, hgrowing⟩ := pairwise_cons.1 hgrowing
    rw [forall_mem_cons] at hlt hproper hfamily
    obtain ⟨state₁, happly, h₁⟩ := applied_of_lt h hlt.1 hproper.1 hfamily.1
    obtain ⟨state₂, bound₂, happlies, h₂, hbound⟩ := ih h₁.wellFormed hgrowing hhead hproper.2
      fun op' hop' => (h₁.families op'.cfId).trans (hfamily.2 op' hop')
    refine ⟨state₂, bound₂, ?_, h₁.trans h₂, fun x _ hops => ?_⟩
    · rw [applyTransactionOps, foldlM_cons, happly]
      exact happlies
    · rw [forall_mem_cons] at hops
      exact hbound x hops.1 hops.2

end RuntimeState

/-- The operations of all the units. -/
def stagedOps (units : List PreparedTransactionAppend) : List TransactionApplyOp :=
  units.flatMap PreparedTransactionAppend.applyOps

variable {op : TransactionApplyOp}

namespace Staged

variable {state : RuntimeState} {after : ℕ} {units : List PreparedTransactionAppend}

theorem sequence_fromSource (op : TransactionOp) (seq time : ℕ) :
    (fromSource op seq time).sequence = seq := by
  cases op <;> rfl

/-- The sequences of a unit lie between those of its frame. -/
theorem of_mem_buildApplyOps {ops : List TransactionOp} {first time : ℕ}
    (h : op ∈ buildApplyOps ops first time) :
    (first ≤ op.sequence ∧ op.sequence < first + ops.length) ∧
      ∃ source ∈ ops, op.cfId = source.cfId ∧ (source.Proper → op.Proper) := by
  obtain ⟨i, hi, rfl⟩ := mem_mapIdx.1 h
  have hseq := sequence_fromSource ops[i] (first + i) time
  refine ⟨by omega, ops[i], getElem_mem hi, ?_⟩
  cases ops[i] with
  | put | delete | deleteRange => exact ⟨rfl, id⟩

theorem pairwise_buildApplyOps (ops : List TransactionOp) (first time : ℕ) :
    (buildApplyOps ops first time).Pairwise (·.sequence < ·.sequence) := by
  rw [buildApplyOps, pairwise_iff_getElem]
  intro i j hi hj hij
  rw [getElem_mapIdx, getElem_mapIdx, sequence_fromSource, sequence_fromSource]
  omega

theorem mem_stagedOps_cons {unit : PreparedTransactionAppend} :
    op ∈ stagedOps (unit :: units) ↔ op ∈ unit.applyOps ∨ op ∈ stagedOps units := by
  rw [stagedOps, flatMap_cons, mem_append]
  rfl

section

variable (h : Staged state after units)

include h

/-- What holds of the operations of each unit holds of all. -/
theorem forall_ops {P : TransactionApplyOp → Prop}
    (hP : ∀ (plan : TxnSequencePlan) (ops : List TransactionOp) (time : ℕ),
      after < plan.beginSeq → plan.firstOpSeq = plan.beginSeq + 1 →
      (state.columnFamilies plan.cfId).isSome → (∀ op ∈ ops, op.cfId = plan.cfId) →
      (∀ op ∈ ops, op.Proper) → ∀ op ∈ buildApplyOps ops plan.firstOpSeq time, P op) :
    ∀ op ∈ stagedOps units, P op := by
  induction h with
  | nil => simp [stagedOps]
  | cons hbegin hfirst hcommit hfamily hops hproper hunits ih =>
    intro op hop
    rcases mem_stagedOps_cons.1 hop with hop | hop
    · exact hP _ _ _ hbegin hfirst hfamily hops hproper op hop
    · exact ih (fun plan ops time hafter => hP plan ops time (by omega)) op hop

theorem after_lt : ∀ op ∈ stagedOps units, after < op.sequence := by
  refine h.forall_ops fun plan ops time hbegin hfirst _ _ _ op hop => ?_
  have := (of_mem_buildApplyOps hop).1.1
  omega

theorem proper : ∀ op ∈ stagedOps units, op.Proper := by
  refine h.forall_ops fun plan ops time _ _ _ _ hproper op hop => ?_
  obtain ⟨-, source, hsource, -, himp⟩ := of_mem_buildApplyOps hop
  exact himp (hproper source hsource)

theorem family :
    ∀ op ∈ stagedOps units, (state.latestSequenceSnapshot op.cfId).isSome := by
  refine h.forall_ops fun plan ops time _ _ hfamily hops _ op hop => ?_
  obtain ⟨-, source, hsource, hcf, -⟩ := of_mem_buildApplyOps hop
  rw [hcf, hops source hsource, RuntimeState.latestSequenceSnapshot, Option.isSome_map]
  exact hfamily

theorem growing :
    (stagedOps units).Pairwise (·.sequence < ·.sequence) := by
  induction h with
  | nil => exact List.Pairwise.nil
  | cons hbegin hfirst hcommit hfamily hops hproper hunits ih =>
    rw [stagedOps, flatMap_cons, pairwise_append]
    refine ⟨pairwise_buildApplyOps _ _ _, ih, fun a ha b hb => ?_⟩
    have := (of_mem_buildApplyOps ha).1.2
    have := hunits.after_lt b hb
    omega

end

end Staged

namespace RuntimeState

variable {state : RuntimeState} {bound : ℕ} {units : List PreparedTransactionAppend}

/-- All the units, one after the other. -/
theorem applyPreparedGroup_ok (h : state.WellFormed bound)
    (hgrowing : (stagedOps units).Pairwise (·.sequence < ·.sequence))
    (hlt : ∀ op ∈ stagedOps units, bound < op.sequence)
    (hproper : ∀ op ∈ stagedOps units, op.Proper)
    (hfamily : ∀ op ∈ stagedOps units, (state.latestSequenceSnapshot op.cfId).isSome) :
    ∃ state' bound', state.applyPreparedGroup units = .ok state' ∧
      Applied state (stagedOps units) bound' state' := by
  induction units generalizing state bound with
  | nil => exact ⟨state, bound, rfl, .refl h⟩
  | cons unit units ih =>
    have hcons : stagedOps (unit :: units) = unit.applyOps ++ stagedOps units := flatMap_cons
    rw [hcons] at hgrowing hlt hproper hfamily ⊢
    rw [forall_mem_append] at hlt hproper hfamily
    obtain ⟨hunit, hunits, hbetween⟩ := pairwise_append.1 hgrowing
    obtain ⟨state₁, bound₁, happly, h₁, hbound⟩ :=
      applyTransactionOps_ok h hunit hlt.1 hproper.1 hfamily.1
    have h₁' : Applied state unit.applyOps bound₁
        { state₁ with appliedSequence := unit.sequencePlan.commitSeq } :=
      ⟨h₁.wellFormed, h₁.hasSeqAt, h₁.liveAt, h₁.families, h₁.time⟩
    obtain ⟨state₂, bound₂, happlies, h₂⟩ := ih h₁'.wellFormed hunits
      (fun op hop => hbound _ (hlt.2 op hop) fun op' hop' => hbetween op' hop' op hop) hproper.2
      fun op hop => (h₁'.families op.cfId).trans (hfamily.2 op hop)
    refine ⟨state₂, bound₂, ?_, h₁'.trans h₂⟩
    rw [applyPreparedGroup, foldlM_cons, applyPrepared, happly]
    exact happlies

end RuntimeState

/-! ## The overlay -/

/-- The writes of the units, as validation sees them. -/
def stagedOverlay (units : List PreparedTransactionAppend) : StagedWriteOverlay :=
  units.foldl StagedWriteOverlay.record {}

theorem mutations_stagedOverlay (units : List PreparedTransactionAppend) :
    (stagedOverlay units).mutations = (stagedOps units).map staged := by
  have hfold : ∀ overlay : StagedWriteOverlay,
      (units.foldl StagedWriteOverlay.record overlay).mutations =
        overlay.mutations ++ (stagedOps units).map staged := by
    induction units with
    | nil => intro overlay; simp [stagedOps]
    | cons unit units ih =>
      intro overlay
      rw [foldl_cons, ih]
      simp [StagedWriteOverlay.record, stagedOps]
  exact hfold {}

/-- A search through what stands for some elements is a search through the elements. -/
theorem findSome?_map_eq {α β γ : Type*} {m : α → β} {f : β → Option γ} {g : α → γ} {p : α → Prop}
    [DecidablePred p] (h : ∀ a, f (m a) = if p a then some (g a) else none) (l : List α) :
    (l.map m).findSome? f = (l.find? p).map g := by
  induction l with
  | nil => rfl
  | cons a l ih =>
    rw [map_cons, findSome?_cons, h, find?_cons]
    by_cases hp : p a
    · simp [hp]
    · simp [hp, ih]

namespace TransactionApplyOp

/-- The operation writes a key of the range. -/
def TouchesRange (cfId : ℕ) (start stop : Key) : TransactionApplyOp → Prop
  | .put family key _ _ _ | .delete family key _ => family = cfId ∧ start ≤ key ∧ key < stop
  | .deleteRange family startKey endKey _ => family = cfId ∧ start < endKey ∧ startKey < stop

instance (cfId : ℕ) (start stop : Key) : DecidablePred (TouchesRange cfId start stop) :=
  fun op => by cases op <;> exact inferInstanceAs (Decidable (_ ∧ _))

theorem touchesRange_iff (hproper : op.Proper) {cfId : ℕ} {start stop : Key} (h : start < stop) :
    op.TouchesRange cfId start stop ↔ ∃ k, (start ≤ k ∧ k < stop) ∧ op.Touches cfId k := by
  cases op with
  | put family key _ _ _ | delete family key _ =>
    constructor
    · rintro ⟨hcf, hkey⟩
      exact ⟨key, hkey, hcf, rfl⟩
    · rintro ⟨k, hk, hcf, rfl⟩
      exact ⟨hcf, hk⟩
  | deleteRange family startKey endKey seq =>
    have hoverlaps := @overlaps_iff start stop h ⟨startKey, endKey, seq⟩ hproper
    constructor
    · rintro ⟨hcf, hstart, hstop⟩
      obtain ⟨k, hk, hcovers⟩ := hoverlaps.1 ⟨hstop, hstart⟩
      exact ⟨k, hk, hcf, hcovers⟩
    · rintro ⟨k, hk, hcf, hcovers⟩
      obtain ⟨hstop, hstart⟩ := hoverlaps.2 ⟨k, hk, hcovers⟩
      exact ⟨hcf, hstart, hstop⟩

end TransactionApplyOp

namespace StagedWriteOverlay

variable (units : List PreparedTransactionAppend) (cfId : ℕ)

theorem latestKeySequence_stagedOverlay (k : Key) :
    (stagedOverlay units).latestKeySequence cfId k =
      (lastTouching cfId k (stagedOps units)).map
        TransactionApplyOp.sequence := by
  rw [latestKeySequence, mutations_stagedOverlay, ← map_reverse]
  refine findSome?_map_eq (fun op => ?_) _
  cases op <;> rfl

theorem keyExists_stagedOverlay (k : Key) (nowMillis : ℕ) :
    (stagedOverlay units).keyExists cfId k nowMillis =
      (lastTouching cfId k (stagedOps units)).map fun op =>
        ValidationPointState.existsAt ⟨none, op.leaves⟩ nowMillis := by
  rw [keyExists, mutations_stagedOverlay, ← map_reverse]
  refine findSome?_map_eq (fun op => ?_) _
  cases op <;> rfl

theorem latestRangeSequence_stagedOverlay (start stop : Key) :
    (stagedOverlay units).latestRangeSequence cfId start stop =
      ((stagedOps units).reverse.find? (TouchesRange cfId start stop)).map
        TransactionApplyOp.sequence := by
  rw [latestRangeSequence, mutations_stagedOverlay, ← map_reverse]
  refine findSome?_map_eq (fun op => ?_) _
  cases op <;> rfl

end StagedWriteOverlay

end Midge
