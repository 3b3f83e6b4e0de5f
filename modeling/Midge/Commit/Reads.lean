import Midge.Commit.Validate
import Midge.Read.ScanSpec

/-!
# What validation reads

The keys of a family have a history: the sequences that touch a key, be it by a
version or by a range tombstone that covers it (`ReadSnapshot.HasSeqAt`), and the
value that they leave behind (`ReadSnapshot.LiveAt`). The reads of a validation tell
of nothing else: of the newest sequence that touches a key, of its value, and of some
sequence that touches a range, if one is new enough.
-/

namespace Midge

open List

/-! ## Walks -/

/-- The value of a state, without the value. -/
def KeyState.validationValue : KeyState → ValidationValue
  | .value _ _ expiration _ => .present expiration
  | _ => .absent

variable {state : KeyState}

theorem validationValue_eq_present {expiration : Option ℕ} :
    state.validationValue = .present expiration ↔
      ∃ value seq opType, state = .value value seq expiration opType := by
  cases state <;> simp [KeyState.validationValue]

variable {seq : ℕ}

namespace PointReadWalk

variable (w : PointReadWalk)

theorem keyState_covered (state : KeyState) (cover : ℕ) :
    keyState ⟨some state, some cover⟩ = if age state ≤ cover then .tombstone cover else state :=
  rfl

theorem decidedSequence_eq : w.decidedSequence = stateSequence w.keyState := by
  obtain ⟨_ | state, _ | cover⟩ := w
  · rfl
  · rfl
  · cases state <;> rfl
  · rw [keyState_covered]
    split_ifs with hle
    · cases state with
      | absent => rfl
      | tombstone seq | value _ seq => exact congrArg some (max_eq_right hle)
    · cases state with
      | absent => exact absurd (Nat.zero_le _) hle
      | tombstone seq | value _ seq => exact congrArg some (max_eq_left (not_le.1 hle).le)

theorem validationValue_eq : w.validationValue = w.keyState.validationValue := by
  obtain ⟨_ | state, _ | cover⟩ := w
  · rfl
  · rfl
  · cases state <;> rfl
  · rw [keyState_covered]
    cases state with
    | absent => rfl
    | tombstone seq => split_ifs <;> rfl
    | value v seq expiration opType =>
      have hvalue : validationValue ⟨some (.value v seq expiration opType), some cover⟩ =
          if decide (cover < seq) then .present expiration else .absent := rfl
      have hage : age (.value v seq expiration opType) = seq := rfl
      rw [hvalue, hage]
      by_cases hlt : cover < seq
      · rw [if_pos (decide_eq_true hlt), if_neg (not_le.2 hlt)]
        rfl
      · rw [if_neg (by simpa using hlt), if_pos (not_lt.1 hlt)]
        rfl

variable {w} {S : Set KeyState} {C : Set ℕ}

theorem age_eq (h : stateSequence state = some seq) : age state = seq := by
  rw [age, h, Option.getD_some]

theorem exists_sequence (h : state ≠ .absent) : ∃ seq, stateSequence state = some seq := by
  cases state <;> simp [stateSequence] at h ⊢

/-- The state of the newest version and of the newest range tombstone is that of the
    newest of all. -/
theorem newest_stateSequence (hS : .absent ∉ S) (hbest : IsNewest age S w.bestState)
    (hcover : IsNewest id C w.coveringTombstoneSeq) :
    IsNewest id {seq | (∃ state ∈ S, stateSequence state = some seq) ∨ seq ∈ C}
      (stateSequence w.keyState) := by
  obtain ⟨_ | best, _ | cover⟩ := w
  · simp [show S = ∅ from hbest, show C = ∅ from hcover, keyState, stateSequence, IsNewest]
  · refine ⟨.inr hcover.mem, ?_⟩
    rintro seq (⟨state, hstate, -⟩ | hseq)
    · rw [show S = ∅ from hbest] at hstate
      exact hstate.elim
    · exact hcover.2 seq hseq
  all_goals
    obtain ⟨x, hx⟩ := exists_sequence (fun h => hS (h ▸ hbest.mem))
    have hmax : ∀ state ∈ S, ∀ seq, stateSequence state = some seq → seq ≤ x := by
      intro state hstate seq hseq
      rw [← age_eq hseq, ← age_eq hx]
      exact hbest.2 state hstate
  · rw [show keyState ⟨some best, none⟩ = best from rfl, hx]
    refine ⟨.inl ⟨best, hbest.mem, hx⟩, ?_⟩
    rintro seq (⟨state, hstate, hseq⟩ | hseq)
    · exact hmax state hstate seq hseq
    · rw [show C = ∅ from hcover] at hseq
      exact hseq.elim
  · rw [keyState_covered, age_eq hx]
    split_ifs with hle
    · refine ⟨.inr hcover.mem, ?_⟩
      rintro seq (⟨state, hstate, hseq⟩ | hseq)
      · exact (hmax state hstate seq hseq).trans hle
      · exact hcover.2 seq hseq
    · rw [hx]
      refine ⟨.inl ⟨best, hbest.mem, hx⟩, ?_⟩
      rintro seq (⟨state, hstate, hseq⟩ | hseq)
      · exact hmax state hstate seq hseq
      · exact (hcover.2 seq hseq).trans (not_le.1 hle).le

/-- The state is a value if the newest version is one and is newer than the range
    tombstones. -/
theorem keyState_eq_value (hS : Set.InjOn age S) (hbest : IsNewest age S w.bestState)
    (hcover : IsNewest id C w.coveringTombstoneSeq) {expiration : Option ℕ} :
    w.keyState.validationValue = .present expiration ↔ ∃ value seq opType,
      IsNewest age S (some (.value value seq expiration opType)) ∧ ∀ c ∈ C, c < seq := by
  rw [validationValue_eq_present]
  constructor
  · rintro ⟨value, seq, opType, h⟩
    refine ⟨value, seq, opType, ?_⟩
    obtain ⟨_ | best, _ | cover⟩ := w
    · cases h
    · cases h
    · obtain rfl : best = _ := h
      exact ⟨hbest, by simp [show C = ∅ from hcover]⟩
    · rw [keyState_covered] at h
      split_ifs at h with hle
      obtain rfl : best = _ := h
      exact ⟨hbest, fun c hc => (hcover.2 c hc).trans_lt (not_le.1 hle)⟩
  · rintro ⟨value, seq, opType, hnewest, hlt⟩
    refine ⟨value, seq, opType, ?_⟩
    obtain ⟨best, cover⟩ := w
    obtain rfl : best = _ := hbest.unique hS hnewest
    cases cover with
    | none => rfl
    | some cover =>
      rw [keyState_covered, if_neg]
      exact not_le.2 (hlt cover hcover.mem)

end PointReadWalk

/-! ## The history of a key -/

variable {file : FileMeta} {d : SstContents}

namespace ReadSnapshot

variable (s : ReadSnapshot)

/-- A version of the key, or a range tombstone that covers it, is there at the
    sequence. -/
def HasSeqAt (k : Key) (seq : ℕ) : Prop :=
  (∃ state ∈ s.statesAt k usizeMax, stateSequence state = some seq) ∨ seq ∈ s.coversAt k usizeMax

/-- The key has a value, which expires then. -/
def LiveAt (k : Key) (expiration : Option ℕ) : Prop :=
  ∃ value seq opType,
    IsNewest age (s.statesAt k usizeMax) (some (.value value seq expiration opType)) ∧
      ∀ c ∈ s.coversAt k usizeMax, c < seq

/-- The same for one of the sources. -/
def SourceHasSeq (source : ReadSource) (k : Key) (seq : ℕ) : Prop :=
  (∃ state ∈ s.sourceStates k usizeMax source, stateSequence state = some seq) ∨
    seq ∈ s.sourceCovers k usizeMax source

/-- A memtable or an SST of the snapshot holds this. -/
def Contains (d : SstContents) : Prop :=
  (∃ m ∈ s.memtables, d = m.contents) ∨ ∃ file ∈ s.sstView.files, s.sstReader file = .ok d

/-- The sources of a snapshot can be read, are in level order, and go up to `bound`. -/
structure WellFormed (bound : ℕ) : Prop where
  catalogued : ∃ files, s.Catalogues files ∧ s.LevelOrdered files
  sound : s.Sound
  ranges : ∀ d, s.Contains d → d.RangesProper
  bounded : ∀ d, s.Contains d → ∀ seq ∈ d.sequences, seq ≤ bound

/-- What a source holds. -/
def SourceHolds (s : ReadSnapshot) : ReadSource → SstContents → Prop
  | .memtable m, d => d = m.contents
  | .sst file, d => s.sstReader file = .ok d

/-- The range tombstones of a source. -/
def sourceRanges (s : ReadSnapshot) : ReadSource → Set RangeTombstone
  | .memtable m => {t | t ∈ m.tombstones}
  | .sst file => {t | ∃ d, s.sstReader file = .ok d ∧ t ∈ d.tombstones}

variable {s} {bound q : ℕ} {k : Key} {source : ReadSource}

theorem contains_iff : s.Contains d ↔ ∃ source ∈ s.sources, s.SourceHolds source d := by
  constructor
  · rintro (⟨m, hm, hd⟩ | ⟨file, hfile, hd⟩)
    · exact ⟨.memtable m, by simp [sources, hm], hd⟩
    · exact ⟨.sst file, by simp [sources, hfile], hd⟩
  · rintro ⟨source, hsource, hd⟩
    cases source with
    | memtable m => exact .inl ⟨m, by simpa [sources] using hsource, hd⟩
    | sst file => exact .inr ⟨file, by simpa [sources] using hsource, hd⟩

theorem Sound.exists_holds (hs : s.Sound) (h : source ∈ s.sources) :
    ∃ d, s.SourceHolds source d := by
  cases source with
  | memtable m => exact ⟨m.contents, rfl⟩
  | sst file =>
    obtain ⟨d, hd, -⟩ := hs.opens file (by simpa [sources] using h)
    exact ⟨d, hd⟩

/-- What holds of a source is told by its contents. -/
theorem Sound.exists_source_iff (hs : s.Sound) {P : ReadSource → Prop} {Q : SstContents → Prop}
    (h : ∀ source d, s.Contains d → s.SourceHolds source d → (P source ↔ Q d)) :
    (∃ source ∈ s.sources, P source) ↔ ∃ d, s.Contains d ∧ Q d := by
  constructor
  · rintro ⟨source, hsource, hp⟩
    obtain ⟨d, hd⟩ := hs.exists_holds hsource
    have hcontains := contains_iff.2 ⟨source, hsource, hd⟩
    exact ⟨d, hcontains, (h source d hcontains hd).1 hp⟩
  · rintro ⟨d, hcontains, hq⟩
    obtain ⟨source, hsource, hd⟩ := contains_iff.1 hcontains
    exact ⟨source, hsource, (h source d hcontains hd).2 hq⟩

theorem sourceRanges_eq (hd : s.SourceHolds source d) :
    s.sourceRanges source = {t | t ∈ d.tombstones} := by
  cases source with
  | memtable m =>
    obtain rfl : d = m.contents := hd
    rfl
  | sst file => simp [sourceRanges, show s.sstReader file = .ok d from hd]

theorem mem_sourceCovers_iff : seq ∈ s.sourceCovers k q source ↔
    ∃ t ∈ s.sourceRanges source, t.visibleAt q ∧ t.Covers k ∧ t.seq = seq := by
  cases source with
  | memtable m => rfl
  | sst file =>
    constructor
    · rintro ⟨d, hd, t, ht, hk⟩
      exact ⟨t, ⟨d, hd, ht⟩, hk⟩
    · rintro ⟨t, ⟨d, hd, ht⟩, hk⟩
      exact ⟨d, hd, t, ht, hk⟩

theorem hasSeqAt_iff : s.HasSeqAt k seq ↔ ∃ source ∈ s.sources, s.SourceHasSeq source k seq := by
  constructor
  · rintro (⟨state, ⟨source, hsource, hstate⟩, hseq⟩ | ⟨source, hsource, hseq⟩)
    exacts [⟨source, hsource, .inl ⟨state, hstate, hseq⟩⟩, ⟨source, hsource, .inr hseq⟩]
  · rintro ⟨source, hsource, ⟨state, hstate, hseq⟩ | hseq⟩
    exacts [.inl ⟨state, ⟨source, hsource, hstate⟩, hseq⟩, .inr ⟨source, hsource, hseq⟩]

theorem absent_notMem_statesAt : .absent ∉ s.statesAt k q := by
  rintro ⟨source, -, h⟩
  exact absent_notMem_sourceStates h

theorem stateSequence_sstState_of_ne {v : RawSstVersion} (h : v.sstState ≠ .absent) :
    stateSequence v.sstState = some v.seq := by
  obtain ⟨seq, hseq⟩ := PointReadWalk.exists_sequence h
  rw [hseq, stateSequence_sstState hseq]

/-- A state of a source is that of a version. -/
theorem exists_version (hd : s.SourceHolds source d) (hstate : state ∈ s.sourceStates k q source)
    (hseq : stateSequence state = some seq) : ∃ v ∈ d.versions, v.key = k ∧ v.seq = seq := by
  cases source with
  | memtable m =>
    obtain ⟨v, hv, hk, -, rfl⟩ := hstate
    rw [Memtable.stateSequence_versionState, Option.some.injEq] at hseq
    obtain rfl : d = m.contents := hd
    exact ⟨v, hv, hk, hseq⟩
  | sst file =>
    obtain ⟨d', hd', v, hv, hk, -, rfl, hne⟩ := hstate
    cases (show s.sstReader file = .ok d from hd).symm.trans hd'
    rw [stateSequence_sstState_of_ne hne, Option.some.injEq] at hseq
    exact ⟨v, hv, hk, hseq⟩

theorem hasSeqAt_of_holds (hd : s.SourceHolds source d) (h : s.SourceHasSeq source k seq) :
    d.HasSeqAt k seq := by
  rcases h with ⟨state, hstate, hseq⟩ | hseq
  · exact .inl (exists_version hd hstate hseq)
  · obtain ⟨t, ht, -, hcovers⟩ := mem_sourceCovers_iff.1 hseq
    rw [sourceRanges_eq hd] at ht
    exact .inr ⟨t, ht, hcovers⟩

/-- A snapshot as of `q` sees all. -/
def Sees (bound q : ℕ) : Prop := bound ≤ q ∨ q = usizeMax

theorem WellFormed.le_bound (h : s.WellFormed bound) (hseq : s.HasSeqAt k seq) : seq ≤ bound := by
  obtain ⟨source, hsource, hseq⟩ := hasSeqAt_iff.1 hseq
  obtain ⟨d, hd⟩ := h.sound.exists_holds hsource
  exact h.bounded d (contains_iff.2 ⟨source, hsource, hd⟩) seq
    (SstContents.seq_mem_of_hasSeqAt (hasSeqAt_of_holds hd hseq))

section

variable (h : s.WellFormed bound) (hq : Sees bound q)

include h hq

theorem WellFormed.visibleAt (hseq : s.HasSeqAt k seq) :
    visibleAt q seq := by
  rcases hq with hq | rfl
  · have := h.le_bound hseq
    simp only [Midge.visibleAt, Bool.or_eq_true, decide_eq_true_eq]
    exact .inr (this.trans hq)
  · exact visibleAt_usizeMax seq

theorem WellFormed.statesAt_eq :
    s.statesAt k q = s.statesAt k usizeMax := by
  refine Set.Subset.antisymm statesAt_subset ?_
  rintro state ⟨source, hsource, hstate⟩
  refine ⟨source, hsource, ?_⟩
  have hsees : ∀ seq, stateSequence state = some seq → Midge.visibleAt q seq := fun seq hseq =>
    h.visibleAt hq (hasSeqAt_iff.2 ⟨source, hsource, .inl ⟨state, hstate, hseq⟩⟩)
  cases source with
  | memtable m =>
    obtain ⟨v, hv, hk, -, rfl⟩ := hstate
    exact ⟨v, hv, hk, hsees _ (Memtable.stateSequence_versionState v), rfl⟩
  | sst file =>
    obtain ⟨d, hd, v, hv, hk, -, rfl, hne⟩ := hstate
    exact ⟨d, hd, v, hv, hk, hsees _ (stateSequence_sstState_of_ne hne), rfl, hne⟩

theorem WellFormed.coversAt_eq :
    s.coversAt k q = s.coversAt k usizeMax := by
  refine Set.ext fun seq => exists_congr fun source => and_congr_right fun hsource => ?_
  constructor
  · intro hin
    obtain ⟨t, ht, -, hcovers⟩ := mem_sourceCovers_iff.1 hin
    exact mem_sourceCovers_iff.2 ⟨t, ht, visibleAt_usizeMax _, hcovers⟩
  · intro hin
    have hsees := h.visibleAt hq (hasSeqAt_iff.2 ⟨source, hsource, .inr hin⟩)
    obtain ⟨t, ht, -, hcovers, rfl⟩ := mem_sourceCovers_iff.1 hin
    exact mem_sourceCovers_iff.2 ⟨t, ht, hsees, hcovers, rfl⟩

end

/-- A walk that sees all finds the newest sequence of the key, and its value. -/
theorem walkPoint_of_sees {files : List FileMeta} (hc : s.Catalogues files)
    (ho : s.LevelOrdered files) (hs : s.Sound)
    (hstates : s.statesAt k q = s.statesAt k usizeMax)
    (hcovers : s.coversAt k q = s.coversAt k usizeMax) :
    ∃ w, s.walkPoint k q = .ok w ∧ IsNewest id {seq | s.HasSeqAt k seq} (stateSequence w.keyState) ∧
      ∀ expiration, w.keyState.validationValue = .present expiration ↔ s.LiveAt k expiration := by
  obtain ⟨w', hvisit, hbest, hcover⟩ := hs.visitAll_newest k q
  obtain ⟨w, hwalk, hstate⟩ := walkPoint_of_visitAll hc ho hvisit
  rw [hstates] at hbest
  rw [hcovers] at hcover
  refine ⟨w, hwalk, ?_, fun expiration => ?_⟩
  · rw [hstate]
    exact PointReadWalk.newest_stateSequence absent_notMem_statesAt hbest hcover
  · rw [hstate]
    exact PointReadWalk.keyState_eq_value (hs.agree k) hbest hcover

theorem WellFormed.walkPoint (h : s.WellFormed bound) (k : Key) (hq : Sees bound q) :
    ∃ w, s.walkPoint k q = .ok w ∧ IsNewest id {seq | s.HasSeqAt k seq} (stateSequence w.keyState) ∧
      ∀ expiration, w.keyState.validationValue = .present expiration ↔ s.LiveAt k expiration := by
  obtain ⟨files, hc, ho⟩ := h.catalogued
  exact walkPoint_of_sees hc ho h.sound (h.statesAt_eq hq) (h.coversAt_eq hq)

/-- What is read of a key: whether something newer than `start` touches it, and its
    value. -/
structure Reads (s : ReadSnapshot) (k : Key) (point : ValidationPointState) : Prop where
  newer : ∀ start, (∃ seq ∈ point.sequence, start < seq) ↔ ∃ seq, start < seq ∧ s.HasSeqAt k seq
  live : ∀ expiration, point.value = .present expiration ↔ s.LiveAt k expiration

theorem newer_of_isNewest {S : Set ℕ} {o : Option ℕ} (h : IsNewest id S o) (start : ℕ) :
    (∃ seq ∈ o.filter (0 < ·), start < seq) ↔ ∃ seq, start < seq ∧ seq ∈ S := by
  constructor
  · rintro ⟨seq, hseq, hlt⟩
    obtain ⟨rfl, -⟩ := Option.mem_filter_iff.1 hseq
    exact ⟨seq, hlt, h.mem⟩
  · rintro ⟨seq, hlt, hseq⟩
    cases o with
    | none =>
      rw [show S = ∅ from h] at hseq
      exact hseq.elim
    | some newest =>
      have hle : seq ≤ newest := h.2 seq hseq
      refine ⟨newest, Option.mem_filter_iff.2 ⟨rfl, ?_⟩, by omega⟩
      simpa using by omega

theorem WellFormed.validationPointState (h : s.WellFormed bound) (k : Key) (hq : Sees bound q) :
    ∃ point, s.validationPointState k q = .ok point ∧ s.Reads k point := by
  obtain ⟨w, hwalk, hnewest, hlive⟩ := h.walkPoint k hq
  refine ⟨_, by rw [ReadSnapshot.validationPointState, hwalk]; rfl, fun start => ?_, ?_⟩
  · rw [w.decidedSequence_eq]
    exact newer_of_isNewest hnewest start
  · rw [w.validationValue_eq]
    exact hlive

theorem WellFormed.latestStateSequence (h : s.WellFormed bound) (k : Key) :
    ∃ latest, s.latestStateSequence k = .ok latest ∧
      ∀ start, (∃ seq ∈ latest, start < seq) ↔ ∃ seq, start < seq ∧ s.HasSeqAt k seq := by
  obtain ⟨w, hwalk, hnewest, -⟩ := h.walkPoint k (.inr rfl)
  refine ⟨_, by rw [ReadSnapshot.latestStateSequence, hwalk]; rfl, fun start => ?_⟩
  rw [w.decidedSequence_eq]
  exact newer_of_isNewest hnewest start

/-- A read finds a value if there is one that has not expired. -/
theorem WellFormed.getBytes (h : s.WellFormed bound) (k : Key) :
    ∃ value, s.getBytes k usizeMax = .ok value ∧
      (value.isSome ↔ ∃ expiration, s.LiveAt k expiration ∧
        isExpiredAt expiration s.readTimeMillis = false) := by
  obtain ⟨w, hwalk, -, hlive⟩ := h.walkPoint k (.inr rfl)
  refine ⟨_, by rw [ReadSnapshot.getBytes, hwalk]; rfl, ?_⟩
  simp only [← hlive, w.resolve_eq_shown]
  cases hstate : w.keyState with
  | absent | tombstone => simp [KeyState.shown, KeyState.validationValue]
  | value v seq expiration opType =>
    cases hexpired : isExpiredAt expiration s.readTimeMillis <;>
      simp [KeyState.shown, KeyState.validationValue, hexpired]

end ReadSnapshot

/-! ## Ranges -/

variable {t : RangeTombstone}

section Ranges

variable {start stop : Key} {threshold : ℕ}

theorem nil_le_key (k : Key) : ([] : Key) ≤ k := not_lt.1 (List.not_lt_nil k)

/-- The key lies in the range. An empty end stands for none. -/
def InRange (start stop : Key) (k : Key) : Prop := start ≤ k ∧ (stop = [] ∨ k < stop)

/-- The range tombstone overlaps the range. An empty bound of the range stands for none. -/
def Overlaps (start stop : Key) (t : RangeTombstone) : Prop :=
  (start = [] ∨ start < t.stop) ∧ (stop = [] ∨ t.start < stop)

theorem optionalBound_of_ne {key : Key} (h : key ≠ []) : optionalBound key = some key := by
  cases key with
  | nil => exact absurd rfl h
  | cons b key => rfl

theorem any_optionalBound {key : Key} {p : Key → Bool} :
    (optionalBound key).any p = false ↔ key = [] ∨ p key = false := by
  by_cases h : key = []
  · rw [h]
    exact iff_of_true rfl (.inl rfl)
  · rw [optionalBound_of_ne h, Option.any_some, or_iff_right h]

theorem all_optionalBound {key : Key} {p : Key → Bool} :
    (optionalBound key).all p = true ↔ key = [] ∨ p key = true := by
  by_cases h : key = []
  · rw [h]
    exact iff_of_true rfl (.inl rfl)
  · rw [optionalBound_of_ne h, Option.all_some, or_iff_right h]

theorem ne_nil_of_lt (h : start < stop) : stop ≠ [] := by
  rintro rfl
  exact (nil_le_key start).not_gt h

theorem contains_latestRange {k : Key} :
    (ReadSnapshot.latestRange start stop).contains k ↔ InRange start stop k := by
  simp only [ScanRange.contains, ReadSnapshot.latestRange, Bool.not_eq_true', Bool.or_eq_false_iff,
    any_optionalBound, decide_eq_false_iff_not, not_lt, not_le, InRange]
  refine and_congr_left fun _ => or_iff_right_iff_imp.2 ?_
  rintro rfl
  exact nil_le_key k

theorem overlapsQuery_latestRange :
    (ReadSnapshot.latestRange start stop).rangeTombstoneOverlapsQuery t ↔
      Overlaps start stop t := by
  simp only [ScanRange.rangeTombstoneOverlapsQuery, ReadSnapshot.latestRange, Bool.not_eq_true',
    Bool.or_eq_false_iff, any_optionalBound, decide_eq_false_iff_not, not_le, Overlaps]
  exact and_comm

theorem overlaps_latestRange_all :
    ((ReadSnapshot.latestRange start stop).stop.all (t.start < ·) &&
      (ReadSnapshot.latestRange start stop).start.all (· < t.stop)) ↔ Overlaps start stop t := by
  simp only [ReadSnapshot.latestRange, Bool.and_eq_true, all_optionalBound, decide_eq_true_eq,
    Overlaps]
  exact and_comm

/-- A range tombstone overlaps a range if it covers a key of it. -/
theorem overlaps_iff (h : start < stop) {t : RangeTombstone} (ht : t.start < t.stop) :
    (t.start < stop ∧ start < t.stop) ↔ ∃ k, (start ≤ k ∧ k < stop) ∧ t.Covers k := by
  constructor
  · rintro ⟨hstop, hstart⟩
    exact ⟨max start t.start, ⟨le_max_left _ _, max_lt h hstop⟩, le_max_right _ _,
      max_lt hstart ht⟩
  · rintro ⟨k, ⟨hstart, hstop⟩, hcovers⟩
    exact ⟨hcovers.1.trans_lt hstop, hstart.trans_lt hcovers.2⟩

theorem mem_newerSequence {state : KeyState} {seq : ℕ} :
    newerSequence threshold state = some seq ↔ stateSequence state = some seq ∧ threshold < seq := by
  simp [newerSequence]

theorem newerSequence_normalizeExpiredState (state : KeyState) (nowMillis : ℕ) :
    newerSequence threshold (normalizeExpiredState state nowMillis) =
      newerSequence threshold state := by
  cases state with
  | absent | tombstone => rfl
  | value v seq expiration opType =>
    rw [normalizeExpiredState]
    split_ifs <;> rfl

theorem isAny_option {α : Type*} (o : Option α) : IsAny {a | o = some a} o := by
  cases o <;> simp [IsAny]

/-- The newest states of some keys tell whether any of their versions is newer than the
    threshold. -/
theorem Lists.isAny_newer {reverse : Bool} {entries : List StateEntry} {S : Key → Set KeyState}
    (h : Lists reverse entries S) :
    IsAny {seq | threshold < seq ∧ ∃ k, ∃ state ∈ S k, stateSequence state = some seq}
      (entries.findSome? fun entry => newerSequence threshold entry.2) := by
  have hfind := @IsAny.findSome? ℕ StateEntry entries
    (fun entry => newerSequence threshold entry.2)
    (fun entry => {seq | newerSequence threshold entry.2 = some seq}) fun entry _ => isAny_option _
  refine hfind.mono ?_ ?_
  · rintro seq ⟨⟨k, state⟩, hentry, hseq⟩
    obtain ⟨hseq, hlt⟩ := mem_newerSequence.1 hseq
    exact ⟨hlt, k, state, (h.newest k state hentry).mem, hseq⟩
  · rintro ⟨seq, hlt, k, state, hstate, hseq⟩
    obtain ⟨newest, hnewest⟩ := h.complete k ⟨state, hstate⟩
    have hle := (h.newest k newest hnewest).2 state hstate
    rw [PointReadWalk.age_eq hseq] at hle
    cases hs : stateSequence newest with
    | none => simp [age, hs] at hle; omega
    | some seq' =>
      rw [PointReadWalk.age_eq hs] at hle
      exact ⟨seq', (k, newest), hnewest, mem_newerSequence.2 ⟨hs, by omega⟩⟩

/-- The sequences newer than the threshold at which a key of the range has a state. -/
def newerStates (S : Key → ℕ → Set KeyState) (start stop : Key) (threshold : ℕ) : Set ℕ :=
  {seq | threshold < seq ∧ ∃ k, InRange start stop k ∧
    ∃ state ∈ S k usizeMax, stateSequence state = some seq}

/-- The sequences newer than the threshold of the range tombstones that overlap the
    range. -/
def newerRanges (tombstones : List RangeTombstone) (start stop : Key) (threshold : ℕ) : Set ℕ :=
  {seq | threshold < seq ∧ ∃ t ∈ tombstones, Overlaps start stop t ∧ t.seq = seq}

theorem newerStates_eq {S : Key → ℕ → Set KeyState} :
    {seq | threshold < seq ∧ ∃ k, ∃ state ∈ (ReadSnapshot.latestRange start stop).within S k,
      stateSequence state = some seq} = newerStates S start stop threshold := by
  ext seq
  constructor
  · rintro ⟨hlt, k, state, ⟨hk, hstate⟩, hseq⟩
    exact ⟨hlt, k, contains_latestRange.1 hk, state, hstate, hseq⟩
  · rintro ⟨hlt, k, hk, state, hstate, hseq⟩
    exact ⟨hlt, k, state, ⟨contains_latestRange.2 hk, hstate⟩, hseq⟩

theorem Memtable.isAny_newerState (m : Memtable) (nowMillis : ℕ) :
    IsAny (newerStates m.statesAt start stop threshold)
      (m.newerState (ReadSnapshot.latestRange start stop) threshold nowMillis) := by
  rw [Memtable.newerState]
  simp only [newerSequence_normalizeExpiredState]
  rw [← newerStates_eq]
  exact (m.lists_rangeStateCursor _).isAny_newer

theorem isAny_newerRanges {tombstones : List RangeTombstone} {p : RangeTombstone → Bool}
    (hp : ∀ t, p t ↔ threshold < t.seq ∧ Overlaps start stop t) :
    IsAny (newerRanges tombstones start stop threshold)
      ((tombstones.find? p).map RangeTombstone.seq) := by
  cases hfind : tombstones.find? p with
  | none =>
    rw [find?_eq_none] at hfind
    refine Set.eq_empty_iff_forall_notMem.2 ?_
    rintro seq ⟨hlt, t, ht, hoverlaps, rfl⟩
    exact hfind t ht ((hp t).2 ⟨hlt, hoverlaps⟩)
  | some t =>
    obtain ⟨hlt, hoverlaps⟩ := (hp t).1 (find?_some hfind)
    exact ⟨hlt, t, mem_of_find?_eq_some hfind, hoverlaps, rfl⟩

theorem Memtable.isAny_newerTombstone (m : Memtable) :
    IsAny (newerRanges m.tombstones start stop threshold)
      (m.newerTombstone (ReadSnapshot.latestRange start stop) threshold) := by
  have hall : m.rangeTombstonesAt usizeMax = m.tombstones :=
    filter_eq_self.2 fun t _ => ReadSnapshot.visibleAt_usizeMax _
  rw [newerTombstone, hall]
  refine isAny_newerRanges fun t => ?_
  rw [Bool.and_eq_true, decide_eq_true_eq, overlapsQuery_latestRange, and_comm]

theorem SstContents.isAny_newerTombstone (d : SstContents) :
    IsAny (newerRanges d.tombstones start stop threshold)
      (d.newerOverlappingRangeTombstoneSeq (ReadSnapshot.latestRange start stop) threshold) := by
  refine isAny_newerRanges fun t => ?_
  rw [Bool.and_assoc, Bool.and_eq_true, decide_eq_true_eq, overlaps_latestRange_all]

theorem newerEntry_map_ok (entries : List StateEntry) :
    newerEntry threshold (entries.map .ok) =
      .ok (entries.findSome? fun entry => newerSequence threshold entry.2) := by
  induction entries with
  | nil => rfl
  | cons entry entries ih =>
    rw [map_cons, newerEntry, findSome?_cons]
    cases newerSequence threshold entry.2 with
    | none => exact ih
    | some seq => rfl

namespace ReadSnapshot

variable {s : ReadSnapshot} {bound : ℕ}

/-- The sequences newer than the threshold at which a source touches the range. -/
def newerIn (s : ReadSnapshot) (start stop : Key) (threshold : ℕ) (source : ReadSource) : Set ℕ :=
  newerStates (fun k q => s.sourceStates k q source) start stop threshold ∪
    {seq | threshold < seq ∧ ∃ t ∈ s.sourceRanges source, Overlaps start stop t ∧ t.seq = seq}

/-- The memtables. -/
theorem isAny_newerInMemtables :
    IsAny {seq | ∃ m ∈ s.memtables, seq ∈ s.newerIn start stop threshold (.memtable m)}
      (s.newerInMemtables (latestRange start stop) threshold) := by
  have himmutable : ∀ m ∈ s.immutableMemtables,
      IsAny (s.newerIn start stop threshold (.memtable m))
        (m.newerState (latestRange start stop) threshold s.readTimeMillis <|>
          m.newerTombstone (latestRange start stop) threshold) := fun m _ =>
    (m.isAny_newerState _).orElse m.isAny_newerTombstone
  have hset : {seq | ∃ m ∈ s.memtables, seq ∈ s.newerIn start stop threshold (.memtable m)} =
      newerStates s.memtable.statesAt start stop threshold ∪
        ({seq | ∃ m ∈ s.immutableMemtables, seq ∈ s.newerIn start stop threshold (.memtable m)} ∪
          newerRanges s.memtable.tombstones start stop threshold) := by
    ext seq
    simp only [memtables, mem_cons, mem_reverse, exists_eq_or_imp, Set.mem_union,
      Set.mem_ofPred_eq, newerIn]
    rw [or_assoc]
    exact or_congr_right or_comm
  rw [hset]
  exact (s.memtable.isAny_newerState s.readTimeMillis).orElse
    ((IsAny.findSome? himmutable).orElse s.memtable.isAny_newerTombstone)

theorem newerIn_sst (hd : s.SourceHolds (.sst file) d) :
    s.newerIn start stop threshold (.sst file) =
      newerRanges d.tombstones start stop threshold ∪
        newerStates (fun k q => s.sourceStates k q (.sst file)) start stop threshold := by
  rw [newerIn, sourceRanges_eq hd, Set.union_comm]
  rfl

/-- A sequence of a source is one of its contents. -/
theorem mem_sequences_of_newerIn (hd : s.SourceHolds (.sst file) d)
    (h : seq ∈ s.newerIn start stop threshold (.sst file)) : seq ∈ d.sequences := by
  rw [newerIn_sst hd] at h
  rcases h with ⟨-, t, ht, -, rfl⟩ | ⟨-, k, -, state, hstate, hseq⟩
  · exact mem_append_right _ (mem_map_of_mem ht)
  · exact SstContents.seq_mem_of_hasSeqAt (hasSeqAt_of_holds hd (.inl ⟨state, hstate, hseq⟩))

/-- The files. -/
theorem Sound.newerInFiles (hs : s.Sound) {all files : List FileMeta} (hc : s.Catalogues all)
    (hfiles : ∀ file ∈ files, file ∈ s.sstView.files) :
    ∃ o, s.newerInFiles (latestRange start stop) threshold files = .ok o ∧
      IsAny {seq | ∃ file ∈ files, seq ∈ s.newerIn start stop threshold (.sst file)} o := by
  induction files with
  | nil => exact ⟨none, rfl, by simp [IsAny]⟩
  | cons file files ih =>
    obtain ⟨o, ho, hany⟩ := ih fun f hf => hfiles f (mem_cons_of_mem _ hf)
    have hfile := hfiles file mem_cons_self
    have hset : {seq | ∃ f ∈ file :: files, seq ∈ s.newerIn start stop threshold (.sst f)} =
        s.newerIn start stop threshold (.sst file) ∪
          {seq | ∃ f ∈ files, seq ∈ s.newerIn start stop threshold (.sst f)} := by
      ext seq
      simp
    rw [hset, ReadSnapshot.newerInFiles]
    obtain ⟨d, entries, hd, hscan, hlists⟩ := hs.lists_file hfile (latestRange start stop)
    split_ifs with hskip
    · -- All the sequences of the file are at most the recorded one.
      refine ⟨o, ho, ?_⟩
      rw [Bool.and_eq_true, Option.any_eq_true] at hskip
      obtain ⟨-, last, hlast, hle⟩ := hskip
      have hempty : s.newerIn start stop threshold (.sst file) = ∅ := by
        refine Set.eq_empty_iff_forall_notMem.2 fun seq hseq => ?_
        have := (hc.boundsKnown _ hfile _ hd).largestSeq last hlast seq
          (mem_sequences_of_newerIn hd hseq)
        have := of_decide_eq_true hle
        rcases hseq with ⟨hlt, -⟩ | ⟨hlt, -⟩ <;> omega
      rwa [hempty, Set.empty_union]
    · have hranges := @SstContents.isAny_newerTombstone start stop threshold d
      have hstates := @Lists.isAny_newer threshold _ _ _ hlists
      rw [newerStates_eq] at hstates
      rw [newerIn_sst hd, Set.union_assoc]
      refine ⟨_, ?_, hranges.orElse (hstates.orElse hany)⟩
      rw [hd]
      simp only [bind, Except.bind]
      cases d.newerOverlappingRangeTombstoneSeq (latestRange start stop) threshold with
      | some seq => rfl
      | none =>
        rw [hscan, newerEntry_map_ok]
        cases entries.findSome? fun entry => newerSequence threshold entry.2 with
        | some seq => rfl
        | none => exact ho

theorem mem_rangeFiles {range : ScanRange} :
    file ∈ s.rangeFiles range ↔ .sst file ∈ s.toldSources range := by
  simp only [rangeFiles, toldSources, mem_append, mem_flatten, mem_flatMap,
    Set.mem_ofPred_eq, reduceCtorEq, and_false, exists_false, false_or, ReadSource.sst.injEq,
    exists_eq_right']

/-- A file out of the range has nothing in it. -/
theorem Catalogues.newerIn_eq_empty {files : List FileMeta} (hc : s.Catalogues files)
    (hs : s.Sound) {f : FileMeta} (hf : f ∈ s.sstView.files) (hcomplete : hasCompleteBounds f)
    (hout : OutOfRange (latestRange start stop).start (latestRange start stop).stop f) :
    s.newerIn start stop threshold (.sst f) = ∅ := by
  obtain ⟨d, hd, -⟩ := hs.opens f hf
  have hholds : s.SourceHolds (.sst f) d := hd
  rw [newerIn_sst hd]
  refine Set.eq_empty_iff_forall_notMem.2 ?_
  rintro seq (⟨-, t, ht, hoverlaps, -⟩ | ⟨-, k, hk, state, hstate, hseq⟩)
  · obtain ⟨lower, upper, hb⟩ := hasCompleteBounds_iff.1 hcomplete
    obtain ⟨-, hsmallest, hlargest, -⟩ := le_of_completeBounds hb
    have hbounds := (hc.boundsKnown _ hf _ hd).keys lower upper hb
    have hmem : ∀ b ∈ [t.start, t.stop], b ∈ d.bounds := fun b hb =>
      mem_append_right _ (mem_flatMap.2 ⟨t, ht, hb⟩)
    have hlower := (hbounds t.start (hmem _ (by simp))).1
    have hupper := (hbounds t.stop (hmem _ (by simp))).2
    rcases hout with ⟨a, ha, hlt⟩ | ⟨b, hb, hnot⟩
    · have hne : start ≠ [] := by
        rintro rfl
        cases ha
      obtain rfl : start = a := by simpa [latestRange, optionalBound_of_ne hne] using ha
      simp only [hlargest, Option.any_some, decide_eq_true_eq] at hlt
      exact ((hoverlaps.1.resolve_left hne).trans_le hupper).not_gt hlt
    · have hne : stop ≠ [] := by
        rintro rfl
        cases hb
      obtain rfl : stop = b := by simpa [latestRange, optionalBound_of_ne hne] using hb
      simp only [hsmallest, Option.any_some, decide_eq_true_eq] at hnot
      exact hnot (hlower.trans_lt (hoverlaps.2.resolve_left hne))
  · exact hc.not_holds hf hcomplete hout (contains_latestRange.2 hk) hd
      (SstContents.holds_iff.2 ⟨seq, hasSeqAt_of_holds hholds (.inl ⟨state, hstate, hseq⟩)⟩)

/-- The search for a newer sequence in a range finds one, if there is any. -/
theorem Sound.anySequenceAfterInRange (hs : s.Sound) {files : List FileMeta}
    (hc : s.Catalogues files) (start stop : Key) (threshold : ℕ) :
    ∃ o, s.anySequenceAfterInRange start stop threshold = .ok o ∧
      IsAny {seq | ∃ source ∈ s.sources, seq ∈ s.newerIn start stop threshold source} o := by
  have hset : {seq | ∃ source ∈ s.sources, seq ∈ s.newerIn start stop threshold source} =
      {seq | ∃ m ∈ s.memtables, seq ∈ s.newerIn start stop threshold (.memtable m)} ∪
        {seq | ∃ file ∈ s.rangeFiles (latestRange start stop),
          seq ∈ s.newerIn start stop threshold (.sst file)} := by
    ext seq
    constructor
    · rintro ⟨source, hsource, hseq⟩
      cases source with
      | memtable m =>
        have hm : m ∈ s.memtables := by simpa [sources] using hsource
        exact .inl ⟨m, hm, hseq⟩
      | sst file =>
        rcases told_or_outOfRange hc (latestRange start stop) hsource with
          htold | ⟨f, hf, heq, hcomplete, hout⟩
        · exact .inr ⟨file, mem_rangeFiles.2 htold, hseq⟩
        · cases heq
          rw [hc.newerIn_eq_empty hs hf hcomplete hout] at hseq
          exact hseq.elim
    · rintro (⟨m, hm, hseq⟩ | ⟨file, hfile, hseq⟩)
      · exact ⟨.memtable m, by simp [sources, hm], hseq⟩
      · exact ⟨.sst file, mem_sources_of_told hc (mem_rangeFiles.1 hfile), hseq⟩
  have hmemtables := @isAny_newerInMemtables start stop threshold s
  rw [hset, ReadSnapshot.anySequenceAfterInRange]
  obtain ⟨o, ho, hany⟩ := @Sound.newerInFiles start stop threshold s hs files
    (s.rangeFiles (latestRange start stop)) hc fun file hfile => by
      simpa [sources] using mem_sources_of_told hc (mem_rangeFiles.1 hfile)
  refine ⟨_, ?_, hmemtables.orElse hany⟩
  cases s.newerInMemtables (latestRange start stop) threshold with
  | some seq => rfl
  | none =>
    cases hmemory : s.memoryMode with
    | false => exact ho
    | true =>
      -- In memory mode there are no files.
      have hnil : s.rangeFiles (latestRange start stop) = [] := by
        refine eq_nil_iff_forall_not_mem.2 fun file hfile => ?_
        have hfile : file ∈ s.sstView.files := by
          simpa [sources] using mem_sources_of_told hc (mem_rangeFiles.1 hfile)
        rw [hc.view, SstReadView.mem_files_fromShared, hc.memory hmemory] at hfile
        exact not_mem_nil hfile
      rw [hnil] at ho
      exact ho

/-- The sequences that touch a range are those that touch one of its keys. -/
theorem mem_newerIn_iff (h : start < stop) {source : ReadSource}
    (hproper : ∀ t ∈ s.sourceRanges source, t.start < t.stop) :
    seq ∈ s.newerIn start stop threshold source ↔
      threshold < seq ∧ ∃ k, (start ≤ k ∧ k < stop) ∧ s.SourceHasSeq source k seq := by
  have hne := ne_nil_of_lt h
  have hrange : ∀ k, InRange start stop k ↔ start ≤ k ∧ k < stop := fun k => by
    simp [InRange, hne]
  have hoverlaps : ∀ t ∈ s.sourceRanges source,
      Overlaps start stop t ↔ ∃ k, (start ≤ k ∧ k < stop) ∧ t.Covers k := by
    intro t ht
    rw [← overlaps_iff h (hproper t ht), Overlaps, and_comm]
    simp only [hne, false_or, and_congr_right_iff, or_iff_right_iff_imp]
    rintro - rfl
    exact (nil_le_key t.start).trans_lt (hproper t ht)
  have hcovers (k : Key) : seq ∈ s.sourceCovers k usizeMax source ↔
      ∃ t ∈ s.sourceRanges source, t.Covers k ∧ t.seq = seq := by
    simp [mem_sourceCovers_iff, RangeTombstone.visibleAt]
  constructor
  · rintro (⟨hlt, k, hk, hstate⟩ | ⟨hlt, t, ht, hover, hseq⟩)
    · exact ⟨hlt, k, (hrange k).1 hk, .inl hstate⟩
    · obtain ⟨k, hk, hcover⟩ := (hoverlaps t ht).1 hover
      exact ⟨hlt, k, hk, .inr ((hcovers k).2 ⟨t, ht, hcover, hseq⟩)⟩
  · rintro ⟨hlt, k, hk, hstate | hcover⟩
    · exact .inl ⟨hlt, k, (hrange k).2 hk, hstate⟩
    · obtain ⟨t, ht, hcover, hseq⟩ := (hcovers k).1 hcover
      exact .inr ⟨hlt, t, ht, (hoverlaps t ht).2 ⟨k, hk, hcover⟩, hseq⟩

/-- The search for a newer sequence of a key of a range finds one, if there is any. -/
theorem WellFormed.anySequenceAfterInRange (hs : s.WellFormed bound) (h : start < stop)
    (threshold : ℕ) :
    ∃ o, s.anySequenceAfterInRange start stop threshold = .ok o ∧
      (o.isSome ↔ ∃ k, (start ≤ k ∧ k < stop) ∧ ∃ seq, threshold < seq ∧ s.HasSeqAt k seq) := by
  obtain ⟨files, hc, -⟩ := hs.catalogued
  obtain ⟨o, ho, hany⟩ := hs.sound.anySequenceAfterInRange hc start stop threshold
  have hproper : ∀ source ∈ s.sources, ∀ t ∈ s.sourceRanges source, t.start < t.stop := by
    intro source hsource t ht
    obtain ⟨d, hd⟩ := hs.sound.exists_holds hsource
    rw [sourceRanges_eq hd] at ht
    exact hs.ranges d (contains_iff.2 ⟨source, hsource, hd⟩) t ht
  refine ⟨o, ho, hany.isSome_iff.trans ⟨?_, ?_⟩⟩
  · rintro ⟨seq, source, hsource, hseq⟩
    obtain ⟨hlt, k, hk, hseq⟩ := (mem_newerIn_iff h (hproper source hsource)).1 hseq
    exact ⟨k, hk, seq, hlt, hasSeqAt_iff.2 ⟨source, hsource, hseq⟩⟩
  · rintro ⟨k, hk, seq, hlt, hseq⟩
    obtain ⟨source, hsource, hseq⟩ := hasSeqAt_iff.1 hseq
    exact ⟨seq, source, hsource, (mem_newerIn_iff h (hproper source hsource)).2 ⟨hlt, k, hk, hseq⟩⟩

end ReadSnapshot

end Ranges

/-! ## The sequences found -/

/-- The version is a put or a delete. -/
def RawSstVersion.IsWrite (v : RawSstVersion) : Prop := v.isTombstone ∨ v.value.isSome

namespace ReadSnapshot

variable {s : ReadSnapshot}

/-- The sequences at which some source touches the key: by a version, be it a put or a
    delete, expired or not, or by a range tombstone. -/
def touching (s : ReadSnapshot) (k : Key) : Set ℕ :=
  {seq | ∃ d, s.Contains d ∧ d.HasSeqAt k seq}

/-- The sequences at which some source touches the range. -/
def touchingRange (s : ReadSnapshot) (start stop : Key) : Set ℕ :=
  {seq | ∃ d, s.Contains d ∧ ((∃ v ∈ d.versions, InRange start stop v.key ∧ v.seq = seq) ∨
    ∃ t ∈ d.tombstones, Overlaps start stop t ∧ t.seq = seq)}

theorem sstState_ne_absent {v : RawSstVersion} (h : v.IsWrite) : v.sstState ≠ .absent := by
  rw [RawSstVersion.sstState]
  rcases h with h | h
  · rw [if_pos h]
    simp
  · obtain ⟨value, hvalue⟩ := Option.isSome_iff_exists.1 h
    rw [hvalue]
    split_ifs <;> simp

section

variable {d : SstContents} {source : ReadSource} {k : Key} {seq : ℕ}

section

variable (hd : s.SourceHolds source d) (hwrites : ∀ v ∈ d.versions, v.IsWrite)

include hd hwrites

/-- A source has a state of a key for each version of it. -/
theorem exists_state_iff :
    (∃ state ∈ s.sourceStates k usizeMax source, stateSequence state = some seq) ↔
      ∃ v ∈ d.versions, v.key = k ∧ v.seq = seq := by
  refine ⟨fun ⟨state, hstate, hseq⟩ => exists_version hd hstate hseq, ?_⟩
  rintro ⟨v, hv, hk, rfl⟩
  cases source with
  | memtable m =>
    obtain rfl : d = m.contents := hd
    exact ⟨_, ⟨v, hv, hk, visibleAt_usizeMax _, rfl⟩, Memtable.stateSequence_versionState v⟩
  | sst file =>
    have hne := sstState_ne_absent (hwrites v hv)
    exact ⟨_, ⟨d, hd, v, hv, hk, visibleAt_usizeMax _, rfl, hne⟩, stateSequence_sstState_of_ne hne⟩

theorem sourceHasSeq_iff :
    s.SourceHasSeq source k seq ↔ d.HasSeqAt k seq := by
  rw [SourceHasSeq, exists_state_iff hd hwrites, mem_sourceCovers_iff, sourceRanges_eq hd]
  simp [RangeTombstone.visibleAt, SstContents.HasSeqAt]

theorem mem_newerIn_iff_holds {start stop : Key} {threshold : ℕ} :
    seq ∈ s.newerIn start stop threshold source ↔
      ((∃ v ∈ d.versions, InRange start stop v.key ∧ v.seq = seq) ∨
        ∃ t ∈ d.tombstones, Overlaps start stop t ∧ t.seq = seq) ∧ threshold < seq := by
  simp only [newerIn, newerStates, exists_state_iff hd hwrites, sourceRanges_eq hd,
    Set.mem_union, Set.mem_ofPred_eq]
  constructor
  · rintro (⟨hlt, k, hk, v, hv, rfl, hseq⟩ | ⟨hlt, t, ht⟩)
    exacts [⟨.inl ⟨v, hv, hk, hseq⟩, hlt⟩, ⟨.inr ⟨t, ht⟩, hlt⟩]
  · rintro ⟨⟨v, hv, hk, hseq⟩ | ⟨t, ht⟩, hlt⟩
    exacts [.inl ⟨hlt, v.key, hk, v, hv, rfl, hseq⟩, .inr ⟨hlt, t, ht⟩]

end

end

variable {files : List FileMeta}

/-- The search in a range finds a sequence above the threshold if and only if a version of
    a key of the range, or a range tombstone that overlaps it, has one; and the latest
    sequence of a key is the greatest of its versions and of the range tombstones that
    cover it, where 0 counts as none. -/
theorem sequences_found (s : ReadSnapshot) (files : List FileMeta) (hc : s.Catalogues files)
    (ho : s.LevelOrdered files) (hs : s.Sound)
    (hwrites : ∀ d, s.Contains d → ∀ v ∈ d.versions, v.IsWrite) :
    (∀ start stop threshold, ∃ o, s.anySequenceAfterInRange start stop threshold = .ok o ∧
      (∀ seq ∈ o, threshold < seq) ∧
      (o.isSome ↔ ∃ seq ∈ s.touchingRange start stop, threshold < seq)) ∧
    ∀ k, ∃ o, s.latestStateSequence k = .ok (o.filter (0 < ·)) ∧
      IsNewest id (s.touching k) o := by
  refine ⟨fun start stop threshold => ?_, fun k => ?_⟩
  · obtain ⟨o, ho, hany⟩ := hs.anySequenceAfterInRange hc start stop threshold
    have hset : {seq | ∃ source ∈ s.sources, seq ∈ s.newerIn start stop threshold source} =
        {seq | seq ∈ s.touchingRange start stop ∧ threshold < seq} := by
      refine Set.ext fun seq => (hs.exists_source_iff fun source d hcontains hd =>
        mem_newerIn_iff_holds hd (hwrites d hcontains)).trans ?_
      simp only [touchingRange, Set.mem_ofPred_eq, ← and_assoc, exists_and_right]
    rw [hset] at hany
    refine ⟨o, ho, fun seq hseq => ?_, hany.isSome_iff⟩
    rw [Option.mem_def.1 hseq] at hany
    exact hany.2
  · obtain ⟨w, hwalk, hnewest, -⟩ := @walkPoint_of_sees s usizeMax k files hc ho hs rfl rfl
    have hset : {seq | s.HasSeqAt k seq} = s.touching k := by
      refine Set.ext fun seq => hasSeqAt_iff.trans ?_
      exact hs.exists_source_iff fun source d hcontains hd =>
        sourceHasSeq_iff hd (hwrites d hcontains)
    rw [hset] at hnewest
    refine ⟨_, ?_, hnewest⟩
    rw [latestStateSequence, hwalk, ← w.decidedSequence_eq]
    rfl

end ReadSnapshot

theorem layerSnapshot_isWrite (d : SstContents) (h : layerSnapshot.Contains d) :
    ∀ v ∈ d.versions, v.IsWrite := by
  rcases h with ⟨m, hm, rfl⟩ | ⟨file, -, hd⟩
  · obtain rfl : m = layerSnapshot.memtable := by
      simpa [ReadSnapshot.memtables, layerSnapshot] using hm
    simp [Memtable.contents, layerSnapshot, RawSstVersion.IsWrite]
  · obtain rfl := Except.ok.inj hd
    simp [layerContents, RawSstVersion.IsWrite]

theorem sequences_found_layers :
    9 ∈ layerSnapshot.touching readKey ∧
      ∃ o, layerSnapshot.latestStateSequence readKey = .ok (o.filter (0 < ·)) ∧
        IsNewest id (layerSnapshot.touching readKey) o :=
  ⟨⟨_, .inl ⟨_, mem_cons_self, rfl⟩, .inl ⟨_, mem_cons_self, rfl, rfl⟩⟩,
    (ReadSnapshot.sequences_found layerSnapshot layerFiles layerSnapshot_catalogues
      layerSnapshot_levelOrdered layerSnapshot_sound layerSnapshot_isWrite).2 readKey⟩

/-- The only version of the key is at sequence 0. -/
def zeroSnapshot : ReadSnapshot where
  memtable := ⟨[⟨readKey, 0, false, some [], none⟩], [], by simp⟩
  immutableMemtables := []
  sstView := .fromShared []
  sstReader _ := .ok ⟨[], []⟩

/-- An older version in the memtable hides the latest one in L0, a version at sequence 0
    is not found, and a range with an empty end goes on to the last key. -/
theorem sequences_missed :
    (staleSnapshot.latestStateSequence readKey = .ok (some 1) ∧
      4 ∈ staleSnapshot.touching readKey) ∧
    (zeroSnapshot.latestStateSequence readKey = .ok none ∧ 0 ∈ zeroSnapshot.touching readKey) ∧
    ((∀ d, layerSnapshot.Contains d → d.tombstones = []) ∧
      layerSnapshot.anySequenceAfterInRange readKey [] 8 = .ok (some 9) ∧
      ∀ k : Key, ¬(readKey ≤ k ∧ k < [])) := by
  refine ⟨⟨by decide, ?_⟩, ⟨by decide, ?_⟩, ?_, by decide, fun k hk => ?_⟩
  · exact ⟨_, .inr ⟨layerFile "a" 0 4, by decide, rfl⟩, .inl ⟨_, mem_cons_self, rfl, rfl⟩⟩
  · exact ⟨_, .inl ⟨_, mem_cons_self, rfl⟩, .inl ⟨_, mem_cons_self, rfl, rfl⟩⟩
  · rintro d (⟨m, hm, rfl⟩ | ⟨file, -, hd⟩)
    · obtain rfl : m = layerSnapshot.memtable := by
        simpa [ReadSnapshot.memtables, layerSnapshot] using hm
      rfl
    · obtain rfl := Except.ok.inj hd
      rfl
  · exact (nil_le_key k).not_gt hk.2

end Midge
