import Midge.Read.State
import Midge.Read.View

/-!
# Point reads

A point read walks the sources of a snapshot from the newest to the oldest, and
stops at the first group of sources that decides the key: that has a version of
it, or a range tombstone covering it. A group is a memtable, some files of L0, or
a deeper level. L0 is cut where all that follows is older, as the recorded
sequences of the files tell (`pointGroupEnd`).

When every shallower source holds newer data of the key than every deeper one
(`ReadSnapshot.LevelOrdered`), nothing is lost by stopping: the read finds the
same state of the key as one that merges all the sources
(`walkPoint_keyState`).
-/

namespace Midge

open List SstReadView

/-! ## The walk -/

/-- An immutable view of a family. -/
structure ReadSnapshot where
  memtable : Memtable
  /-- From the oldest to the newest. -/
  immutableMemtables : List Memtable
  sstView : SstReadView
  /-- Opening an SST. -/
  sstReader : FileMeta → MidgeResult SstContents
  memoryMode : Bool := false
  readTimeMillis : ℕ := 0

/-- What a walk has found in the sources visited so far. -/
structure PointReadWalk where
  bestState : Option KeyState := none
  coveringTombstoneSeq : Option ℕ := none
  deriving DecidableEq, Repr

namespace PointReadWalk

/-- A state or a covering range tombstone decides the key. -/
def decided (w : PointReadWalk) : Bool := w.bestState.isSome || w.coveringTombstoneSeq.isSome

/-- The newest sequence touching the key. -/
def decidedSequence (w : PointReadWalk) : Option ℕ :=
  maxSeq (w.bestState.bind stateSequence) w.coveringTombstoneSeq

/-- Take in what a source tells. -/
def visit (w : PointReadWalk) (f : Finding) : MidgeResult PointReadWalk := do
  let bestState ← mergeBestState w.bestState f.state
  return ⟨bestState, maxSeq w.coveringTombstoneSeq f.cover⟩

/-- The visible value: unless the newest version is a tombstone, is covered by a
    range tombstone or has expired. -/
def resolve (w : PointReadWalk) (readTimeMillis : ℕ) : Option Value :=
  w.bestState.bind fun state =>
    if w.coveringTombstoneSeq.any ((stateSequence state).getD 0 ≤ ·) then none
    else
      match state with
      | .value value _ expiration _ =>
        if isExpiredAt expiration readTimeMillis then none else some value
      | _ => none

/-- The state of the key: the best one, unless a range tombstone hides it. -/
def keyState (w : PointReadWalk) : KeyState :=
  match w.bestState, w.coveringTombstoneSeq with
  | none, none => .absent
  | none, some cover => .tombstone cover
  | some state, none => state
  | some state, some cover =>
    if (stateSequence state).getD 0 ≤ cover then .tombstone cover else state

end PointReadWalk

/-- The length of the L0 group: it is closed when everything after it is older
    than all that is in it. -/
def closeGroup : ℕ → List FileMeta → ℕ
  | _, [] => 0
  | groupOldest, file :: rest =>
    let groupOldest := min groupOldest (file.smallestSeq.getD 0)
    if rest.all fun later => later.largestSeq.getD 0 < groupOldest then 1
    else closeGroup groupOldest rest + 1

/-- The length of the group that the candidates start with. -/
def pointGroupEnd : List FileMeta → ℕ
  | [] => 0
  | first :: candidates =>
    let level := (first :: candidates).takeWhile (·.level = first.level)
    if first.level ≠ 0 ∨ level.any (fun file => file.smallestSeq.isNone || file.largestSeq.isNone)
    then level.length
    else closeGroup usizeMax level

namespace ReadSnapshot

variable (s : ReadSnapshot) (key : Key) (snapshotSeq : ℕ)

/-- Visit a memtable. -/
def visitMemtable (w : PointReadWalk) (m : Memtable) : MidgeResult PointReadWalk :=
  w.visit (m.finding key snapshotSeq)

/-- Visit an SST. -/
def visitSst (w : PointReadWalk) (file : FileMeta) : MidgeResult PointReadWalk := do
  let reader ← s.sstReader file
  let finding ← reader.finding key snapshotSeq
  w.visit finding

/-- Visit memtables until the key is decided. -/
def walkMemtables : PointReadWalk → List Memtable → MidgeResult PointReadWalk
  | w, [] => .ok w
  | w, m :: memtables =>
    if w.decided then .ok w
    else do
      let w ← visitMemtable key snapshotSeq w m
      walkMemtables w memtables

/-- Visit the SSTs group by group, until the key is decided. A group is never
    empty, so that the number of candidates is enough fuel. -/
def walkGroups : ℕ → PointReadWalk → List FileMeta → MidgeResult PointReadWalk
  | 0, w, _ => .ok w
  | fuel + 1, w, candidates =>
    if candidates = [] ∨ w.decided then .ok w
    else do
      let w ← (candidates.take (pointGroupEnd candidates)).foldlM
        (s.visitSst key snapshotSeq) w
      walkGroups fuel w (candidates.drop (pointGroupEnd candidates))

/-- Visit the sources from the newest, until the key is decided. -/
def walkPoint : MidgeResult PointReadWalk := do
  let w ← visitMemtable key snapshotSeq {} s.memtable
  let w ← walkMemtables key snapshotSeq w s.immutableMemtables.reverse
  if s.memoryMode || w.decided then return w
  else
    let candidates := s.sstView.pointCandidates key
    s.walkGroups key snapshotSeq candidates.length w candidates

/-- A point read. -/
def getBytes : MidgeResult (Option Value) := do
  let walk ← s.walkPoint key snapshotSeq
  return walk.resolve s.readTimeMillis

/-- The latest sequence touching the key. -/
def latestStateSequence : MidgeResult (Option ℕ) := do
  let walk ← s.walkPoint key usizeMax
  return walk.decidedSequence.filter (0 < ·)

/-- The memtables from the newest. -/
def memtables : List Memtable := s.memtable :: s.immutableMemtables.reverse

/-- Merge what every memtable and every SST tells of the key. -/
def mergeEverySource : MidgeResult PointReadWalk := do
  let w ← s.memtables.foldlM (visitMemtable key snapshotSeq) {}
  s.sstView.files.foldlM (s.visitSst key snapshotSeq) w

end ReadSnapshot

/-! ## Level order -/

/-- All that the first source holds of a key is newer than what the second one
    holds of it. -/
def NewerThan (a b : SstContents) : Prop :=
  ∀ k x y, a.HasSeqAt k x → b.HasSeqAt k y → y < x

/-- The entry is right about the contents, as far as it goes: an entry without
    complete bounds, or without sequences, says nothing. -/
structure Described (file : FileMeta) (d : SstContents) : Prop where
  keys : ∀ lower upper, GrandparentOverlap.completeBounds file = some (lower, upper) →
    ∀ b ∈ d.bounds, lower ≤ b ∧ b ≤ upper
  smallestSeq : ∀ first ∈ file.smallestSeq, ∀ seq ∈ d.sequences, first ≤ seq
  largestSeq : ∀ last ∈ file.largestSeq, ∀ seq ∈ d.sequences, seq ≤ last

/-- The catalog is that of the files, and is right about them. -/
structure ReadSnapshot.Catalogues (s : ReadSnapshot) (files : List FileMeta) : Prop where
  view : s.sstView = .fromShared files
  described : ∀ file ∈ files, ∀ d, s.sstReader file = .ok d → Described file d
  memory : s.memoryMode → files = []

/-- Every shallower source holds newer data of a key than every deeper one: the
    memtables from the newest to the oldest, L0, and the deeper levels. -/
structure ReadSnapshot.LevelOrdered (s : ReadSnapshot) (files : List FileMeta) : Prop where
  memtables : s.memtables.Pairwise fun m m' => NewerThan m.contents m'.contents
  flushed : ∀ m ∈ s.memtables, ∀ file ∈ files, ∀ d, s.sstReader file = .ok d →
    NewerThan m.contents d
  levels : ∀ file ∈ files, ∀ file' ∈ files, file.level < file'.level → ∀ d d',
    s.sstReader file = .ok d → s.sstReader file' = .ok d' → NewerThan d d'

/-! ## Stopping early -/

theorem mergeBestState_absent (best : Option KeyState) : mergeBestState best .absent = .ok best :=
  rfl

theorem of_mergeBestState {best best' : Option KeyState} {state : KeyState}
    (h : mergeBestState best state = .ok best') :
    best' = best ∨ (best' = some state ∧ (stateSequence state).isSome) := by
  rw [mergeBestState] at h
  split_ifs at h with habsent
  · exact .inl (Except.ok.inj h).symm
  · obtain ⟨wins, -, h⟩ := except_bind_eq_ok.1 h
    have hsome : (stateSequence state).isSome := by
      cases state <;> simp [stateSequence] at habsent ⊢
    have h := Except.ok.inj h
    split_ifs at h
    exacts [.inr ⟨h.symm, hsome⟩, .inl h.symm]

/-- An older state never replaces a newer one. -/
theorem mergeBestState_of_older {best state : KeyState} {x : ℕ} (hx : stateSequence best = some x)
    (hold : ∀ y, stateSequence state = some y → y < x) :
    mergeBestState (some best) state = .ok (some best) := by
  rw [mergeBestState]
  split_ifs with habsent
  · rfl
  · obtain ⟨y, hy⟩ : ∃ y, stateSequence state = some y := by
      cases state <;> simp [stateSequence] at habsent ⊢
    have hlt := hold y hy
    have hconflict : ∀ message, checkConflict message best state = .ok () := by
      intro message
      rw [checkConflict]
      split
      next => rw [if_neg fun h => by rw [hy, hx, Option.some.injEq] at h; omega]
      next => rfl
    have hbest : best ≠ .absent := fun h => by simp [h, stateSequence] at hx
    simp only [Option.elim_some, candidateWins, hconflict, hx, hy, Option.getD_some,
      decide_eq_false hbest, decide_eq_false hlt.not_gt]
    rfl

variable {seq : ℕ}

namespace PointReadWalk

variable {w w' : PointReadWalk} {f : Finding}

/-- The sequence of the best state or of the range tombstone. -/
def HasSeq (w : PointReadWalk) (seq : ℕ) : Prop :=
  (∃ state, w.bestState = some state ∧ stateSequence state = some seq) ∨
    w.coveringTombstoneSeq = some seq

/-- The best state is a version. -/
def Present (w : PointReadWalk) : Prop :=
  ∀ state, w.bestState = some state → (stateSequence state).isSome

theorem visit_nothing (w : PointReadWalk) : w.visit .nothing = .ok w := by
  rw [visit, Finding.nothing, mergeBestState_absent]
  obtain ⟨best, cover⟩ := w
  cases cover <;> rfl

theorem maxSeq_eq_some {a b : Option ℕ} {c : ℕ} (h : maxSeq a b = some c) :
    a = some c ∨ b = some c := by
  cases a with
  | none => exact .inr h
  | some a =>
    cases b with
    | none => exact .inl h
    | some b =>
      rcases max_choice a b with hm | hm <;> simp [maxSeq, hm] at h <;> simp [h]

/-- What a visit adds comes from the source. -/
theorem hasSeq_of_visit (h : w.visit f = .ok w') (hseq : w'.HasSeq seq) :
    w.HasSeq seq ∨ f.HasSeq seq := by
  obtain ⟨best, hbest, h⟩ := except_bind_eq_ok.1 h
  cases h
  rcases hseq with ⟨state, hstate, hs⟩ | hseq
  · rcases of_mergeBestState hbest with rfl | ⟨rfl, -⟩
    · exact .inl (.inl ⟨state, hstate, hs⟩)
    · cases hstate
      exact .inr (.inl hs)
  · rcases maxSeq_eq_some hseq with h | h
    exacts [.inl (.inr h), .inr (.inr h)]

theorem present_of_visit (h : w.visit f = .ok w') (hp : w.Present) : w'.Present := by
  obtain ⟨best, hbest, h⟩ := except_bind_eq_ok.1 h
  cases h
  intro state hstate
  rcases of_mergeBestState hbest with rfl | ⟨rfl, hsome⟩
  · exact hp state hstate
  · cases hstate
    exact hsome

theorem hasSeq_of_decided (hp : w.Present) (h : w.decided) : ∃ seq, w.HasSeq seq := by
  rw [decided, Bool.or_eq_true, Option.isSome_iff_exists, Option.isSome_iff_exists] at h
  rcases h with ⟨state, hs⟩ | ⟨cover, hc⟩
  · obtain ⟨seq, hseq⟩ := Option.isSome_iff_exists.1 (hp state hs)
    exact ⟨seq, .inl ⟨state, hs, hseq⟩⟩
  · exact ⟨cover, .inr hc⟩

/-- `w'` only adds to `w` what `w` makes irrelevant. -/
structure Extends (w w' : PointReadWalk) : Prop where
  best : ∀ state, w.bestState = some state → w'.bestState = some state
  cover : ∀ c, w.coveringTombstoneSeq = some c → w'.coveringTombstoneSeq = some c
  hidden : w.bestState = none → ∀ state, w'.bestState = some state →
    ∃ c, w.coveringTombstoneSeq = some c ∧ (stateSequence state).getD 0 < c
  passed : w.coveringTombstoneSeq = none → ∀ c, w'.coveringTombstoneSeq = some c →
    ∃ state, w.bestState = some state ∧ c < (stateSequence state).getD 0

theorem Extends.refl (w : PointReadWalk) : Extends w w :=
  ⟨fun _ h => h, fun _ h => h, fun h _ h' => by simp [h] at h', fun h _ h' => by simp [h] at h'⟩

theorem Extends.keyState (h : Extends w w') (hdecided : w.decided) :
    w'.keyState = w.keyState := by
  obtain ⟨best, cover⟩ := w
  obtain ⟨best', cover'⟩ := w'
  cases best with
  | none =>
    cases cover with
    | none => simp [decided] at hdecided
    | some c =>
      obtain rfl : cover' = some c := h.cover c rfl
      cases best' with
      | none => rfl
      | some state =>
        obtain ⟨c', hc', hlt⟩ := h.hidden rfl state rfl
        cases hc'
        exact if_pos hlt.le
  | some state =>
    obtain rfl : best' = some state := h.best state rfl
    cases cover with
    | some c =>
      obtain rfl : cover' = some c := h.cover c rfl
      rfl
    | none =>
      cases cover' with
      | none => rfl
      | some c =>
        obtain ⟨state', hs', hlt⟩ := h.passed rfl c rfl
        cases hs'
        exact if_neg (not_le.2 hlt)

/-- Visiting an older source adds only what is irrelevant. -/
theorem Extends.visit {w'' : PointReadWalk} (h : Extends w w') (hp : w.Present)
    (hdecided : w.decided) (hold : ∀ x y, w.HasSeq x → f.HasSeq y → y < x)
    (hvisit : w'.visit f = .ok w'') : Extends w w'' := by
  obtain ⟨best, hbest, hvisit⟩ := except_bind_eq_ok.1 hvisit
  cases hvisit
  refine ⟨fun state hstate => ?_, fun c hc => ?_, fun hnone state hstate => ?_,
    fun hnone c hc => ?_⟩
  · obtain ⟨x, hx⟩ := Option.isSome_iff_exists.1 (hp state hstate)
    rw [h.best state hstate, mergeBestState_of_older hx fun y hy =>
      hold x y (.inl ⟨state, hstate, hx⟩) (.inl hy)] at hbest
    exact (Except.ok.inj hbest).symm
  · simp only [h.cover c hc]
    cases hf : f.cover with
    | none => rfl
    | some c' =>
      have := hold c c' (.inr hc) (.inr hf)
      simp only [maxSeq, max_eq_left this.le]
  · obtain ⟨x, hx | hx⟩ := hasSeq_of_decided hp hdecided
    · simp [hnone] at hx
    · rcases of_mergeBestState hbest with rfl | ⟨rfl, hsome⟩
      · exact h.hidden hnone state hstate
      · cases hstate
        obtain ⟨y, hy⟩ := Option.isSome_iff_exists.1 hsome
        refine ⟨x, hx, ?_⟩
        rw [hy]
        exact hold x y (.inr hx) (.inl hy)
  · obtain ⟨x, ⟨state, hs, hx⟩ | hx⟩ := hasSeq_of_decided hp hdecided
    · rcases maxSeq_eq_some hc with hc | hc
      · exact h.passed hnone c hc
      · refine ⟨state, hs, ?_⟩
        rw [hx]
        exact hold x c (.inl ⟨state, hs, hx⟩) (.inr hc)
    · simp [hnone] at hx

end PointReadWalk

/-! ## Groups -/

theorem closeGroup_le (oldest : ℕ) (l0 : List FileMeta) : closeGroup oldest l0 ≤ l0.length := by
  induction l0 generalizing oldest with
  | nil => exact le_rfl
  | cons file rest ih =>
    rw [closeGroup]
    split_ifs
    · simp
    · simpa using ih _

/-- What follows an L0 group is older than all that is in it. -/
theorem of_closeGroup {oldest : ℕ} {l0 : List FileMeta} {f g : FileMeta}
    (hf : f ∈ l0.take (closeGroup oldest l0)) (hg : g ∈ l0.drop (closeGroup oldest l0)) :
    g.largestSeq.getD 0 < min oldest (f.smallestSeq.getD 0) := by
  induction l0 generalizing oldest f with
  | nil => simp at hf
  | cons file rest ih =>
    rw [closeGroup] at hf hg
    split_ifs at hf hg with hclosed
    · simp only [take_succ_cons, take_zero, mem_singleton] at hf
      simp only [drop_succ_cons, drop_zero] at hg
      rw [hf]
      simpa using all_eq_true.1 hclosed g hg
    · simp only [take_succ_cons, mem_cons] at hf
      simp only [drop_succ_cons] at hg
      have hrest : ∀ h ∈ rest.take (closeGroup (min oldest (file.smallestSeq.getD 0)) rest),
          g.largestSeq.getD 0 < min (min oldest (file.smallestSeq.getD 0))
            (h.smallestSeq.getD 0) := fun h hh => ih hh hg
      rcases hf with rfl | hf
      · -- The rest of the group is not empty, or it would have been closed.
        cases hrest' : rest.take (closeGroup (min oldest (f.smallestSeq.getD 0)) rest) with
        | nil =>
          cases rest with
          | nil => simp at hg
          | cons r rest =>
            rw [closeGroup] at hrest'
            split_ifs at hrest' <;> simp at hrest'
        | cons h _ => exact (hrest h (by simp [hrest'])).trans_le (min_le_left _ _)
      · have := hrest f hf
        omega

variable {candidates : List FileMeta}

theorem pointGroupEnd_pos {first : FileMeta} : 0 < pointGroupEnd (first :: candidates) := by
  rw [pointGroupEnd]
  split_ifs
  · simp
  · simp only [decide_true, takeWhile_cons_of_pos, closeGroup]
    split_ifs <;> omega

theorem lt_level_of_mem_dropWhile {files : List FileMeta} {level : ℕ}
    (hlevels : files.Pairwise fun f g => f.level ≤ g.level) (hle : ∀ f ∈ files, level ≤ f.level)
    {f : FileMeta} (hf : f ∈ files.dropWhile (·.level = level)) : level < f.level := by
  have hdown : files.Pairwise fun f g => decide (g.level = level) → decide (f.level = level) := by
    refine List.Pairwise.imp_of_mem (fun {f g} hf _ hfg hg => ?_) hlevels
    rw [decide_eq_true_eq] at hg ⊢
    exact le_antisymm (hg ▸ hfg) (hle f hf)
  have hne := not_of_mem_dropWhile hdown hf
  rw [decide_eq_true_eq] at hne
  exact lt_of_le_of_ne (hle f ((dropWhile_sublist _).mem hf)) (Ne.symm hne)

/-- What follows a group is at a deeper level, or in L0 and older by the recorded
    sequences. -/
theorem of_pointGroupEnd (hlevels : candidates.Pairwise fun f g => f.level ≤ g.level)
    {f g : FileMeta} (hf : f ∈ candidates.take (pointGroupEnd candidates))
    (hg : g ∈ candidates.drop (pointGroupEnd candidates)) :
    f.level < g.level ∨ ∃ last first, g.largestSeq = some last ∧ f.smallestSeq = some first ∧
      last < first := by
  cases candidates with
  | nil => simp at hf
  | cons first candidates =>
    obtain ⟨level, hlevel⟩ :
        ∃ level, level = (first :: candidates).takeWhile (·.level = first.level) := ⟨_, rfl⟩
    have hend : pointGroupEnd (first :: candidates) = level.length ∨
        (pointGroupEnd (first :: candidates) = closeGroup usizeMax level ∧
          ∀ file ∈ level, file.smallestSeq ≠ none ∧ file.largestSeq ≠ none) := by
      rw [pointGroupEnd, ← hlevel]
      split_ifs with hwhole
      · exact .inl rfl
      · refine .inr ⟨rfl, ?_⟩
        simp only [not_or, any_eq_true, not_exists, not_and, Bool.or_eq_true,
          Option.isNone_iff_eq_none] at hwhole
        exact hwhole.2
    generalize pointGroupEnd (first :: candidates) = n at hend hf hg
    have hle : n ≤ level.length := by
      rcases hend with rfl | ⟨rfl, -⟩
      exacts [le_rfl, closeGroup_le _ _]
    have hsplit := takeWhile_append_dropWhile (p := fun a : FileMeta => a.level = first.level)
      (l := first :: candidates)
    rw [← hlevel] at hsplit
    rw [← hsplit, take_append_of_le_length hle] at hf
    rw [← hsplit, drop_append_of_le_length hle, mem_append] at hg
    have hfl : f.level = first.level := by
      have := mem_of_mem_take hf
      rw [hlevel] at this
      simpa using mem_takeWhile_imp this
    rcases hg with hg | hg
    · -- The group is cut inside of the level: it is L0.
      rcases hend with rfl | ⟨rfl, hseqs⟩
      · simp at hg
      · obtain ⟨last, hlast⟩ := Option.ne_none_iff_exists'.1 (hseqs g (mem_of_mem_drop hg)).2
        obtain ⟨oldest, holdest⟩ :=
          Option.ne_none_iff_exists'.1 (hseqs f (mem_of_mem_take hf)).1
        have := of_closeGroup hf hg
        rw [hlast, holdest] at this
        exact .inr ⟨last, oldest, hlast, holdest, this.trans_le (min_le_right _ _)⟩
    · have hfirst : ∀ a ∈ first :: candidates, first.level ≤ a.level := by
        simpa using (pairwise_cons.1 hlevels).1
      have := lt_level_of_mem_dropWhile hlevels hfirst hg
      exact .inl (by omega)

/-! ## Visiting sources one after another -/

variable {sources : List (MidgeResult Finding)}

namespace PointReadWalk

variable {w w' w'' : PointReadWalk}

/-- Visit the sources, whose answers may be errors. -/
def visitAll (w : PointReadWalk) (sources : List (MidgeResult Finding)) :
    MidgeResult PointReadWalk :=
  sources.foldlM (fun w source => source >>= w.visit) w

theorem visitAll_cons {source : MidgeResult Finding} :
    w.visitAll (source :: sources) = .ok w' ↔
      ∃ f, source = .ok f ∧ ∃ w₁, w.visit f = .ok w₁ ∧ w₁.visitAll sources = .ok w' := by
  rw [visitAll, foldlM_cons, bind_assoc, except_bind_eq_ok]
  simp only [except_bind_eq_ok]
  rfl

theorem visitAll_append {l l' : List (MidgeResult Finding)} :
    w.visitAll (l ++ l') = w.visitAll l >>= (visitAll · l') := by
  simp [visitAll, foldlM_append]

/-- What the visits have found comes from the sources. -/
theorem hasSeq_of_visitAll (h : w.visitAll sources = .ok w') (hseq : w'.HasSeq seq) :
    w.HasSeq seq ∨ ∃ f, .ok f ∈ sources ∧ f.HasSeq seq := by
  induction sources generalizing w with
  | nil =>
    cases h
    exact .inl hseq
  | cons source sources ih =>
    obtain ⟨f, rfl, w₁, hvisit, h⟩ := visitAll_cons.1 h
    rcases ih h with hw | ⟨f', hf', hs⟩
    · rcases hasSeq_of_visit hvisit hw with hw | hf
      exacts [.inl hw, .inr ⟨f, mem_cons_self, hf⟩]
    · exact .inr ⟨f', mem_cons_of_mem _ hf', hs⟩

theorem present_of_visitAll (h : w.visitAll sources = .ok w') (hp : w.Present) : w'.Present := by
  induction sources generalizing w with
  | nil =>
    cases h
    exact hp
  | cons source sources ih =>
    obtain ⟨f, rfl, w₁, hvisit, h⟩ := visitAll_cons.1 h
    exact ih h (present_of_visit hvisit hp)

/-- Once the key is decided, older sources do not change its state. -/
theorem keyState_of_older (hp : w.Present) (hdecided : w.decided)
    (hold : ∀ f, .ok f ∈ sources → ∀ x y, w.HasSeq x → f.HasSeq y → y < x)
    (h : w.visitAll sources = .ok w') : w'.keyState = w.keyState := by
  suffices hext : ∀ w₁ : PointReadWalk, Extends w w₁ → w₁.visitAll sources = .ok w' →
      Extends w w' from (hext w (.refl w) h).keyState hdecided
  clear h
  intro w₁ hext h
  induction sources generalizing w₁ with
  | nil =>
    cases h
    exact hext
  | cons source sources ih =>
    obtain ⟨f, rfl, w₂, hvisit, h⟩ := visitAll_cons.1 h
    refine ih (fun f hf => hold f (mem_cons_of_mem _ hf)) w₂ ?_ h
    exact hext.visit hp hdecided (hold f mem_cons_self) hvisit

theorem present_empty : ({} : PointReadWalk).Present := by
  intro state h
  cases h

theorem not_hasSeq_empty : ¬ ({} : PointReadWalk).HasSeq seq := by
  rintro (⟨_, h, -⟩ | h) <;> cases h

theorem eq_empty_of_not_decided (h : w.decided = false) : w = {} := by
  obtain ⟨best, cover⟩ := w
  simp only [decided, Bool.or_eq_false_iff, Option.isSome_eq_false_iff,
    Option.isNone_iff_eq_none] at h
  rw [h.1, h.2]

end PointReadWalk

/-! ## The whole walk -/

open PointReadWalk

variable {file : FileMeta} {d : SstContents}

/-- The keys that a file holds are within its bounds. -/
theorem Described.of_holds {key : Key} (h : Described file d) {lower upper : Key}
    (hb : GrandparentOverlap.completeBounds file = some (lower, upper)) (hk : d.Holds key) :
    lower ≤ key ∧ key ≤ upper := by
  obtain ⟨a, ha, b, hb', hak, hkb⟩ := SstContents.inHull_of_holds hk
  exact ⟨(h.keys lower upper hb a ha).1.trans hak, hkb.trans (h.keys lower upper hb b hb').2⟩

/-- A file that is left out does not hold the key. -/
theorem Described.not_holds {key : Key} (h : Described file d)
    (hno : SstReadView.mayHold key file = false) : ¬ d.Holds key := by
  intro hk
  obtain ⟨lower, upper, hb, hout⟩ := of_not_mayHold hno
  exact hout (h.of_holds hb hk)

variable {w' w : PointReadWalk} {l : List FileMeta}

namespace ReadSnapshot

variable {s : ReadSnapshot} {files : List FileMeta} {key : Key} {q : ℕ}

/-- What an SST tells of the key, if it can be read. -/
def sstFinding (s : ReadSnapshot) (key : Key) (q : ℕ) (file : FileMeta) : MidgeResult Finding := do
  let reader ← s.sstReader file
  reader.finding key q

theorem foldlM_visitSst :
    l.foldlM (s.visitSst key q) w = w.visitAll (l.map (s.sstFinding key q)) := by
  rw [visitAll, foldlM_map]
  congr 1
  funext w file
  rw [visitSst, sstFinding, bind_assoc]

theorem foldlM_visitMemtable {l : List Memtable} :
    l.foldlM (visitMemtable key q) w = w.visitAll (l.map fun m => .ok (m.finding key q)) := by
  rw [visitAll, foldlM_map]
  rfl

theorem of_mem_sstFinding {f : Finding} (h : .ok f ∈ l.map (s.sstFinding key q)) :
    ∃ file ∈ l, ∃ d, s.sstReader file = .ok d ∧ ∀ seq, f.HasSeq seq → d.HasSeqAt key seq := by
  obtain ⟨file, hfile, h⟩ := mem_map.1 h
  obtain ⟨d, hd, h⟩ := except_bind_eq_ok.1 h
  exact ⟨file, hfile, d, hd, fun seq => SstContents.hasSeqAt_of_finding h⟩

/-- A source that holds nothing of the key tells nothing. -/
theorem visitAll_filter {p : FileMeta → Bool}
    (hp : ∀ file ∈ l, p file = false → ∀ d, s.sstReader file = .ok d → ¬ d.Holds key)
    (h : w.visitAll (l.map (s.sstFinding key q)) = .ok w') :
    w.visitAll ((l.filter p).map (s.sstFinding key q)) = .ok w' := by
  induction l generalizing w with
  | nil => exact h
  | cons file l ih =>
    have hp' := fun file hf => hp file (mem_cons_of_mem _ hf)
    obtain ⟨f, hf, w₁, hvisit, h⟩ := visitAll_cons.1 h
    by_cases hpf : p file
    · rw [filter_cons_of_pos hpf]
      exact visitAll_cons.2 ⟨f, hf, w₁, hvisit, ih hp' h⟩
    · rw [filter_cons_of_neg hpf]
      obtain ⟨d, hd, hfind⟩ := except_bind_eq_ok.1 hf
      have hnothing : f = .nothing := Finding.eq_nothing fun seq hseq =>
        hp file mem_cons_self (by simpa using hpf) d hd
          (SstContents.holds_iff.2 ⟨seq, SstContents.hasSeqAt_of_finding hfind hseq⟩)
      rw [hnothing, visit_nothing] at hvisit
      cases hvisit
      exact ih hp' h

/-- The candidates tell all that the files of the catalog tell. -/
theorem visitAll_pointCandidates (hc : s.Catalogues files)
    (h : w.visitAll (s.sstView.files.map (s.sstFinding key q)) = .ok w') :
    w.visitAll ((s.sstView.pointCandidates key).map (s.sstFinding key q)) = .ok w' := by
  have hout : ∀ file ∈ s.sstView.files, mayHold key file = false →
      ∀ d, s.sstReader file = .ok d → ¬ d.Holds key := by
    intro file hf hno d hd
    rw [hc.view, mem_files_fromShared] at hf
    exact (hc.described file hf d hd).not_holds hno
  rw [hc.view] at h hout ⊢
  rw [pointCandidates_eq]
  rw [SstReadView.files] at h hout
  simp only [mem_append, or_imp, forall_and] at hout
  rw [map_append, visitAll_append] at h ⊢
  obtain ⟨w₁, hl0, h⟩ := except_bind_eq_ok.1 h
  refine except_bind_eq_ok.2 ⟨w₁, visitAll_filter hout.1 hl0, ?_⟩
  replace hout := hout.2
  clear hl0
  generalize (fromShared files).levels = levels at h hout ⊢
  induction levels generalizing w₁ with
  | nil => exact h
  | cons level levels ih =>
    simp only [flatMap_cons, map_append, visitAll_append] at h ⊢
    obtain ⟨w₂, hlevel, h⟩ := except_bind_eq_ok.1 h
    obtain ⟨w₃, hordered, hfallback⟩ := except_bind_eq_ok.1 hlevel
    simp only [flatMap_cons, mem_append, or_imp, forall_and] at hout
    refine except_bind_eq_ok.2 ⟨w₂, except_bind_eq_ok.2 ⟨w₃, ?_, hfallback⟩, ih w₂ h hout.2⟩
    exact visitAll_filter hout.1.1 hordered

/-- What follows a group is older. -/
theorem older_of_group (hc : s.Catalogues files) (ho : s.LevelOrdered files)
    (hmem : ∀ file ∈ candidates, file ∈ files)
    (hlevels : candidates.Pairwise fun f g => f.level ≤ g.level) {file' : FileMeta}
    (hf : file ∈ candidates.take (pointGroupEnd candidates))
    (hf' : file' ∈ candidates.drop (pointGroupEnd candidates)) {d' : SstContents}
    (hd : s.sstReader file = .ok d) (hd' : s.sstReader file' = .ok d') : NewerThan d d' := by
  have hfiles := hmem file (mem_of_mem_take hf)
  have hfiles' := hmem file' (mem_of_mem_drop hf')
  rcases of_pointGroupEnd hlevels hf hf' with hlt | ⟨last, first, hlast, hfirst, hlt⟩
  · exact ho.levels file hfiles file' hfiles' hlt d d' hd hd'
  · intro k x y hx hy
    have h₁ := (hc.described file hfiles d hd).smallestSeq first hfirst x
      (SstContents.seq_mem_of_hasSeqAt hx)
    have h₂ := (hc.described file' hfiles' d' hd').largestSeq last hlast y
      (SstContents.seq_mem_of_hasSeqAt hy)
    omega

/-- Walking the groups finds the state that visiting all the candidates finds. -/
theorem walkGroups_keyState (hc : s.Catalogues files) (ho : s.LevelOrdered files) {fuel : ℕ}
    (hfuel : candidates.length ≤ fuel) (hmem : ∀ file ∈ candidates, file ∈ files)
    (hlevels : candidates.Pairwise fun f g => f.level ≤ g.level)
    (h : visitAll {} (candidates.map (s.sstFinding key q)) = .ok w') :
    ∃ w, s.walkGroups key q fuel {} candidates = .ok w ∧ w.keyState = w'.keyState := by
  induction fuel generalizing candidates with
  | zero =>
    obtain rfl := eq_nil_of_length_eq_zero (Nat.le_zero.1 hfuel)
    exact ⟨_, rfl, by cases h; rfl⟩
  | succ fuel ih =>
    cases candidates with
    | nil => exact ⟨_, rfl, by cases h; rfl⟩
    | cons first rest =>
      set n := pointGroupEnd (first :: rest) with hn
      have hpos : 0 < n := pointGroupEnd_pos
      rw [← take_append_drop n (first :: rest), map_append,
        visitAll_append] at h
      obtain ⟨w₁, hgroup, h⟩ := except_bind_eq_ok.1 h
      have hstep : s.walkGroups key q (fuel + 1) {} (first :: rest) =
          s.walkGroups key q fuel w₁ ((first :: rest).drop n) := by
        rw [walkGroups, if_neg (by simp [decided]), foldlM_visitSst, ← hn, hgroup]
        rfl
      rw [hstep]
      cases hdecided : w₁.decided with
      | true =>
        have hstop : s.walkGroups key q fuel w₁ ((first :: rest).drop n) = .ok w₁ := by
          cases fuel with
          | zero => rfl
          | succ fuel => rw [walkGroups, if_pos (.inr hdecided)]
        refine ⟨w₁, hstop, (keyState_of_older
          (present_of_visitAll hgroup present_empty) hdecided
          (fun f hf x y hx hy => ?_) h).symm⟩
        -- What the walk has found is in the group, what is left is after it.
        rcases hasSeq_of_visitAll hgroup hx with hx | ⟨f', hf', hx⟩
        · exact absurd hx not_hasSeq_empty
        · obtain ⟨file, hfile, d, hd, hseq⟩ := of_mem_sstFinding hf'
          obtain ⟨file', hfile', d', hd', hseq'⟩ := of_mem_sstFinding hf
          exact older_of_group hc ho hmem hlevels hfile hfile' hd hd' key x y (hseq x hx)
            (hseq' y hy)
      | false =>
        rw [eq_empty_of_not_decided hdecided] at h ⊢
        refine ih ?_ (fun file hf => hmem file (mem_of_mem_drop hf))
          (hlevels.sublist (drop_sublist _ _)) h
        rw [length_drop]
        omega

/-- Walking the memtables, and then what is read after them. -/
theorem walkMemtables_keyState {memtables : List Memtable}
    {next : PointReadWalk → MidgeResult PointReadWalk}
    (hpair : memtables.Pairwise fun m m' => NewerThan m.contents m'.contents)
    (hold : ∀ m ∈ memtables, ∀ f, .ok f ∈ sources → ∀ x y, m.contents.HasSeqAt key x →
      f.HasSeq y → y < x) (hdecided : ∀ w : PointReadWalk, w.decided → next w = .ok w)
    (hnext : ∀ w', visitAll {} sources = .ok w' →
      ∃ w, next {} = .ok w ∧ w.keyState = w'.keyState)
    (h : visitAll {} ((memtables.map fun m => .ok (m.finding key q)) ++ sources) =
      .ok w') :
    ∃ w, (walkMemtables key q {} memtables >>= next) = .ok w ∧ w.keyState = w'.keyState := by
  induction memtables with
  | nil => exact hnext w' h
  | cons m memtables ih =>
    rw [pairwise_cons] at hpair
    obtain ⟨_, ⟨⟩, w₁, hvisit, h⟩ := visitAll_cons.1 h
    have hstep : walkMemtables key q {} (m :: memtables) = walkMemtables key q w₁ memtables := by
      rw [walkMemtables, if_neg (by simp [decided]), visitMemtable, hvisit]
      rfl
    rw [hstep]
    cases hd : w₁.decided with
    | true =>
      have hstop : walkMemtables key q w₁ memtables = .ok w₁ := by
        cases memtables with
        | nil => rfl
        | cons m memtables => rw [walkMemtables, if_pos hd]
      rw [hstop]
      refine ⟨w₁, hdecided w₁ hd, (keyState_of_older
        (present_of_visit hvisit present_empty) hd
        (fun f hf x y hx hy => ?_) h).symm⟩
      have hx : m.contents.HasSeqAt key x := by
        rcases hasSeq_of_visit hvisit hx with hx | hx
        · exact absurd hx not_hasSeq_empty
        · exact Memtable.hasSeqAt_of_finding hx
      rcases mem_append.1 hf with hf | hf
      · obtain ⟨m', hm', hf⟩ := mem_map.1 hf
        cases hf
        exact hpair.1 m' hm' key x y hx (Memtable.hasSeqAt_of_finding hy)
      · exact hold m mem_cons_self f hf x y hx hy
    | false =>
      rw [eq_empty_of_not_decided hd] at h ⊢
      exact ih hpair.2 (fun m hm => hold m (mem_cons_of_mem _ hm)) h

theorem mem_of_mem_pointCandidates (h : file ∈ (SstReadView.fromShared files).pointCandidates key) :
    file ∈ files := by
  rw [pointCandidates_eq] at h
  rw [← SstReadView.mem_files_fromShared, SstReadView.files]
  simp only [mem_append, mem_filter, mem_flatMap] at h ⊢
  rcases h with ⟨h, -⟩ | ⟨level, hlevel, ⟨h, -⟩ | h⟩
  exacts [.inl h, .inr ⟨level, hlevel, .inl h⟩, .inr ⟨level, hlevel, .inr h⟩]

theorem pairwise_level_pointCandidates :
    ((SstReadView.fromShared files).pointCandidates key).Pairwise fun f g => f.level ≤ g.level := by
  rw [pointCandidates_eq]
  refine (@SstReadView.pairwise_level_files files).sublist ?_
  refine List.Sublist.append filter_sublist ?_
  generalize (fromShared files).levels = levels
  induction levels with
  | nil => exact .slnil
  | cons level levels ih =>
    rw [flatMap_cons, flatMap_cons]
    exact (filter_sublist.append (List.Sublist.refl _)).append ih

/-- What all the sources tell of the key, from the newest. -/
def findings (s : ReadSnapshot) (key : Key) (q : ℕ) : List (MidgeResult Finding) :=
  (s.memtables.map fun m => .ok (m.finding key q)) ++ s.sstView.files.map (s.sstFinding key q)

/-- The walk finds the state that visiting all the sources finds. -/
theorem walkPoint_of_visitAll (hc : s.Catalogues files) (ho : s.LevelOrdered files)
    (h : visitAll {} (s.findings key q) = .ok w') :
    ∃ w, s.walkPoint key q = .ok w ∧ w.keyState = w'.keyState := by
  have hwalk : s.walkPoint key q = (walkMemtables key q {} s.memtables >>= fun w =>
      if s.memoryMode || w.decided then return w
      else s.walkGroups key q (s.sstView.pointCandidates key).length w
        (s.sstView.pointCandidates key)) := by
    rw [walkPoint, memtables, walkMemtables, if_neg (by simp [decided]), bind_assoc]
  rw [hwalk]
  refine walkMemtables_keyState ho.memtables (fun m hm f hf x y hx hy => ?_)
    (fun w hw => ?_) (fun w' h => ?_) h
  · obtain ⟨file, hfile, d, hd, hseq⟩ := of_mem_sstFinding hf
    rw [hc.view, mem_files_fromShared] at hfile
    exact ho.flushed m hm file hfile d hd key x y hx (hseq y hy)
  · simp [hw, pure, Except.pure]
  · cases hmemory : s.memoryMode with
    | true =>
      have hnil : s.sstView.files = [] := by
        refine eq_nil_iff_forall_not_mem.2 fun file hf => ?_
        rw [hc.view, mem_files_fromShared, hc.memory hmemory] at hf
        simp at hf
      rw [hnil] at h
      cases h
      exact ⟨_, rfl, rfl⟩
    | false =>
      rw [if_neg (by simp [decided])]
      refine walkGroups_keyState hc ho le_rfl (fun file hf => ?_) ?_ (visitAll_pointCandidates hc h)
      · rw [hc.view] at hf
        exact mem_of_mem_pointCandidates hf
      · rw [hc.view]
        exact pairwise_level_pointCandidates

/-- A point read that stops early finds the state of the key that merging every
    memtable and every SST of the catalog finds. -/
theorem walkPoint_keyState (s : ReadSnapshot) (files : List FileMeta) (hc : s.Catalogues files)
    (ho : s.LevelOrdered files) (key : Key) (snapshotSeq : ℕ) (w' : PointReadWalk)
    (h : s.mergeEverySource key snapshotSeq = .ok w') :
    ∃ w, s.walkPoint key snapshotSeq = .ok w ∧ w.keyState = w'.keyState := by
  refine walkPoint_of_visitAll hc ho ?_
  rw [mergeEverySource, foldlM_visitMemtable] at h
  simp only [foldlM_visitSst] at h
  rwa [findings, visitAll_append]

end ReadSnapshot

/-! ## A read of three layers -/

def readKey : Key := [Fin.last 255]

/-- A file that holds one version of the key, at its own sequence. -/
def layerFile (name : String) (level seq : ℕ) : FileMeta where
  name := name
  level := level
  sstSeq := seq
  smallestKey := some readKey
  largestKey := some readKey
  smallestSeq := some seq
  largestSeq := some seq
  keyBoundsComplete := true

def layerFiles : List FileMeta :=
  [layerFile "c" 1 1, layerFile "a" 0 4, layerFile "b" 0 5]

def layerContents (file : FileMeta) : SstContents :=
  ⟨[⟨readKey, file.sstSeq, false, some [], none⟩], []⟩

/-- The key was deleted at 9, after it had been written at 1, 4 and 5. -/
def layerSnapshot : ReadSnapshot where
  memtable := ⟨[⟨readKey, 9, true, none, none⟩], [], by simp⟩
  immutableMemtables := []
  sstView := .fromShared layerFiles
  sstReader file := .ok (layerContents file)

theorem hasSeqAt_layerContents {k : Key} :
    (layerContents file).HasSeqAt k seq ↔ readKey = k ∧ file.sstSeq = seq := by
  simp [SstContents.HasSeqAt, layerContents]

theorem layerSnapshot_catalogues : layerSnapshot.Catalogues layerFiles where
  view := rfl
  described file hfile d hd := by
    obtain rfl := Except.ok.inj hd
    have hall : ∀ file ∈ layerFiles, GrandparentOverlap.completeBounds file =
        some (readKey, readKey) ∧ file.smallestSeq = some file.sstSeq ∧
          file.largestSeq = some file.sstSeq := by decide
    obtain ⟨hb, hs, hl⟩ := hall file hfile
    refine ⟨fun lower upper hbounds b hb' => ?_, ?_, ?_⟩
    · rw [hb] at hbounds
      cases hbounds
      simp only [SstContents.bounds, layerContents, map_cons, map_nil,
        flatMap_nil, append_nil, mem_singleton] at hb'
      exact ⟨hb'.ge, hb'.le⟩
    · simp [hs, SstContents.sequences, layerContents]
    · simp [hl, SstContents.sequences, layerContents]
  memory h := by cases h

theorem layerSnapshot_levelOrdered : layerSnapshot.LevelOrdered layerFiles where
  memtables := by simp [ReadSnapshot.memtables, layerSnapshot]
  flushed m hm file hfile d hd k x y hx hy := by
    obtain rfl := Except.ok.inj hd
    simp only [ReadSnapshot.memtables, layerSnapshot, reverse_nil, mem_singleton] at hm
    have hseq : ∀ file ∈ layerFiles, file.sstSeq < 9 := by decide
    have hx : x = 9 := by
      rw [hm] at hx
      have hx : readKey = k ∧ 9 = x := by simpa [SstContents.HasSeqAt, Memtable.contents] using hx
      exact hx.2.symm
    have := hseq file hfile
    have := (hasSeqAt_layerContents.1 hy).2
    omega
  levels file hfile file' hfile' hlt d d' hd hd' k x y hx hy := by
    obtain rfl := Except.ok.inj hd
    obtain rfl := Except.ok.inj hd'
    have hseq : ∀ file ∈ layerFiles, ∀ file' ∈ layerFiles, file.level < file'.level →
      file'.sstSeq < file.sstSeq := by decide
    have := hseq file hfile file' hfile' hlt
    rw [hasSeqAt_layerContents] at hx hy
    omega

theorem walkPoint_keyState_layers :
    layerSnapshot.mergeEverySource readKey 8 = .ok ⟨some (.value [] 5 none .put), none⟩ ∧
      ∃ w, layerSnapshot.walkPoint readKey 8 = .ok w ∧ w.keyState = .value [] 5 none .put :=
  ⟨rfl, ReadSnapshot.walkPoint_keyState layerSnapshot layerFiles layerSnapshot_catalogues
    layerSnapshot_levelOrdered readKey 8 _ rfl⟩

end Midge
