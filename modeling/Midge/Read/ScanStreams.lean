import Midge.Read.Scan
import Midge.Read.Versions

/-!
# The cursors of a scan

What a cursor yields: the keys of the range in the direction of the scan, each once
and with the newest state that the cursor sees of it (`Lists`).

A cursor over a run of files also finds range tombstones as it opens the files.
`Ready` says what a source still has to tell, and that the range tombstones not
found yet cover only keys after the one that it stands at. This is what makes it
safe to open the files late (`level_ready`): when a cursor yields a key it has read
one entry ahead, and the files not opened yet come after that entry.
-/

namespace Midge

open List SnapshotStateIterator

/-! ## Lists of states -/

/-- The entries are the newest states of the keys, in the direction of the scan. -/
structure Lists (reverse : Bool) (entries : List StateEntry) (S : Key → Set KeyState) : Prop where
  sorted : entries.Pairwise fun e e' => Ahead reverse e.1 e'.1
  newest : ∀ k state, (k, state) ∈ entries → IsNewest age (S k) (some state)
  complete : ∀ k, (S k).Nonempty → ∃ state, (k, state) ∈ entries

namespace Lists

variable {reverse : Bool} {entries : List StateEntry} {S S' : Key → Set KeyState}

theorem congr (h : Lists reverse entries S) (hS : ∀ k, S k = S' k) : Lists reverse entries S' :=
  funext hS ▸ h

theorem nil (h : ∀ k, S k = ∅) : Lists reverse [] S :=
  ⟨.nil, fun _ _ h => absurd h not_mem_nil, fun k ⟨_, hs⟩ => by rw [h k] at hs; exact hs.elim⟩

/-- A key has one entry. -/
theorem unique (h : Lists reverse entries S) {k : Key} {state state' : KeyState}
    (hk : (k, state) ∈ entries) (hk' : (k, state') ∈ entries) : state = state' := by
  by_contra hne
  have : Std.Symm fun e e' : StateEntry => e.1 ≠ e'.1 := ⟨fun _ _ h => h.symm⟩
  have hkeys : entries.Pairwise fun e e' => e.1 ≠ e'.1 := h.sorted.imp fun h => h.ne
  exact hkeys.forall hk hk' (fun heq => hne (congrArg Prod.snd heq)) rfl

/-- A key that comes before all the others. -/
theorem cons {key : Key} {state : KeyState} (h : Lists reverse entries S)
    (hfirst : ∀ k, (S k).Nonempty → Ahead reverse key k)
    (hstate : IsNewest age (S' key) (some state))
    (hS : ∀ k ≠ key, S' k = S k) : Lists reverse ((key, state) :: entries) S' := by
  have hahead : ∀ k state, (k, state) ∈ entries → Ahead reverse key k :=
    fun k state hk => hfirst k ⟨state, (h.newest k state hk).mem⟩
  refine ⟨pairwise_cons.2 ⟨fun e he => hahead e.1 e.2 he, h.sorted⟩, ?_, ?_⟩
  · intro k state' hk
    rcases mem_cons.1 hk with heq | hk
    · cases heq
      exact hstate
    · rw [hS k (hahead k state' hk).ne.symm]
      exact h.newest k state' hk
  · intro k hk
    by_cases heq : k = key
    · exact ⟨state, by rw [heq]; exact mem_cons_self⟩
    · rw [hS k heq] at hk
      obtain ⟨state', h'⟩ := h.complete k hk
      exact ⟨state', mem_cons_of_mem _ h'⟩

end Lists

theorem pairwise_directed {range : ScanRange} {α : Type} {R : Bool → α → α → Prop} {l : List α}
    (h : l.Pairwise (R false)) (hR : ∀ a b, R false a b → R true b a) :
    (range.directed l).Pairwise (R range.reverse) := by
  rw [ScanRange.directed]
  cases hr : range.reverse
  · exact h
  · exact pairwise_reverse.2 (h.imp fun hab => hR _ _ hab)

@[simp]
theorem mem_directed {range : ScanRange} {α : Type} {l : List α} {a : α} :
    a ∈ range.directed l ↔ a ∈ l := by
  rw [ScanRange.directed]
  split_ifs <;> simp

/-! ## Memtables -/

/-- The states of the keys of a range. -/
def ScanRange.within (range : ScanRange) (S : Key → ℕ → Set KeyState) (k : Key) : Set KeyState :=
  {state | range.contains k ∧ state ∈ S k range.sequence}

/-- The cursor of a memtable. -/
theorem Memtable.lists_rangeStateCursor (m : Memtable) (range : ScanRange) :
    Lists range.reverse (m.rangeStateCursor range) (range.within m.statesAt) := by
  rw [rangeStateCursor]
  generalize hall : (m.versions.filter fun v =>
    visibleAt range.sequence v.seq && range.contains v.key).map RawSstVersion.key = all
  have hkeys : ∀ k, k ∈ all.dedup ↔ range.contains k ∧ (m.statesAt k range.sequence).Nonempty := by
    intro k
    simp only [mem_dedup, ← hall, mem_map, mem_filter, Bool.and_eq_true]
    constructor
    · rintro ⟨v, ⟨hv, hq, hc⟩, rfl⟩
      exact ⟨hc, _, v, hv, rfl, hq, rfl⟩
    · rintro ⟨hc, _, v, hv, rfl, hq, -⟩
      exact ⟨v, ⟨hv, hq, hc⟩, rfl⟩
  have hnodup := nodup_dedup all
  generalize all.dedup = keys at *
  refine ⟨pairwise_map.2 ?_, fun k state hk => ?_, fun k hk => ?_⟩
  · have hsorted : (keys.insertionSort (· ≤ ·)).Pairwise (· < ·) :=
      ((pairwise_insertionSort (· ≤ ·) keys).and
        ((perm_insertionSort (· ≤ ·) keys).nodup_iff.2 hnodup)).imp
          fun h => lt_of_le_of_ne h.1 h.2
    exact pairwise_directed (R := Ahead) hsorted fun _ _ h => h
  · obtain ⟨key, hmem, heq⟩ := mem_map.1 hk
    cases heq
    rw [mem_directed, mem_insertionSort, hkeys] at hmem
    have hnewest := @Memtable.getRawKeyStateAt_newest k range.sequence m
    have hset : range.within m.statesAt k = m.statesAt k range.sequence := by
      ext state
      simp [ScanRange.within, hmem.1]
    rw [hset]
    rw [KeyState.present?] at hnewest
    split_ifs at hnewest
    · rw [show m.statesAt k range.sequence = ∅ from hnewest] at hmem
      exact absurd hmem.2 Set.not_nonempty_empty
    · exact hnewest
  · obtain ⟨state, hc, hstate⟩ := hk
    refine ⟨_, mem_map.2 ⟨k, ?_, rfl⟩⟩
    rw [mem_directed, mem_insertionSort, hkeys]
    exact ⟨hc, state, hstate⟩

/-! ## SSTs -/

section Sst

variable {reverse : Bool} {q : ℕ} {key : Key}

@[simp]
theorem statesOf_nil : statesOf [] key q = ∅ := by
  ext
  simp [mem_statesOf]

theorem statesOf_append {l l' : List RawSstVersion} :
    statesOf (l ++ l') key q = statesOf l key q ∪ statesOf l' key q := by
  ext state
  simp only [mem_statesOf, Set.mem_union, mem_append, or_and_right, exists_or]

/-- Considering a version. -/
theorem considerEntry_newest {v : RawSstVersion} {S : Set KeyState} {best : KeyState}
    (hS : Set.InjOn age (S ∪ statesOf [v] v.key q)) (hbest : IsNewest age S best.present?) :
    ∃ best', considerEntry q best v = .ok best' ∧
      IsNewest age (S ∪ statesOf [v] v.key q) best'.present? := by
  rw [considerEntry]
  split_ifs with hq
  · rw [statesOf_cons rfl hq, statesOf_nil] at hS ⊢
    have hset : (S ∪ if v.sstState = .absent then ∅ else insert v.sstState ∅) =
        if v.sstState = .absent then S else insert v.sstState S := by
      split_ifs
      · exact Set.union_empty S
      · rw [Set.union_insert, Set.union_empty]
    rw [hset] at hS ⊢
    exact mergeNewerState_newest _ (fun h => by rwa [if_neg h] at hS) hbest
  · rw [statesOf_cons_of_not fun h => hq h.2, statesOf_nil, Set.union_empty]
    exact ⟨best, rfl, hbest⟩

/-- The states of the keys of a list of versions, when those of the first one have
    been seen in part. -/
def pendingStates (q : ℕ) (key : Key) (S : Set KeyState) (versions : List RawSstVersion)
    (k : Key) : Set KeyState :=
  (if k = key then S else ∅) ∪ statesOf versions k q

theorem pendingStates_cons {v : RawSstVersion} {S : Set KeyState} {versions : List RawSstVersion}
    (k : Key) : pendingStates q v.key (S ∪ statesOf [v] v.key q) versions k =
      pendingStates q v.key S (v :: versions) k := by
  rw [pendingStates, pendingStates, show statesOf (v :: versions) k q =
    statesOf [v] k q ∪ statesOf versions k q from statesOf_append (l := [v])]
  split_ifs with hk
  · rw [hk, Set.union_assoc]
  · rw [@statesOf_cons_of_not k q v [] fun h => hk h.1.symm, statesOf_nil, Set.empty_union,
      Set.empty_union]

/-- A key is done when all that follows is for keys after it. -/
theorem lists_emit {versions : List RawSstVersion} {S : Set KeyState} {best : KeyState}
    {entries : List StateEntry} (hbest : IsNewest age S best.present?)
    (hafter : ∀ v ∈ versions, Ahead reverse key v.key)
    (hentries : Lists reverse entries fun k => statesOf versions k q) :
    Lists reverse ((if best = .absent then [] else [(key, best)]) ++ entries)
      (pendingStates q key S versions) := by
  have hnone : statesOf versions key q = ∅ := by
    refine Set.eq_empty_iff_forall_notMem.2 ?_
    rintro state ⟨v, hv, hk, -⟩
    exact (hafter v hv).ne hk.symm
  rw [KeyState.present?] at hbest
  split_ifs at hbest ⊢
  · refine hentries.congr fun k => ?_
    rw [pendingStates, show S = ∅ from hbest, ite_self, Set.empty_union]
  · refine hentries.cons ?_ ?_ ?_
    · rintro k ⟨state, v, hv, rfl, -⟩
      exact hafter v hv
    · simpa [pendingStates, hnone] using hbest
    · intro k hk
      simp [pendingStates, hk]

/-- The states of the keys of consecutive versions. -/
theorem lists_nextStates {versions : List RawSstVersion} {S : Set KeyState} {best : KeyState}
    (hsorted : versions.Pairwise fun v w => ¬ Ahead reverse w.key v.key)
    (hfirst : ∀ v ∈ versions, ¬ Ahead reverse v.key key)
    (hS : ∀ k, Set.InjOn age (pendingStates q key S versions k))
    (hbest : IsNewest age S best.present?) :
    ∃ entries, nextStates q key best versions = entries.map .ok ∧
      Lists reverse entries (pendingStates q key S versions) := by
  induction versions generalizing key S best with
  | nil =>
    refine ⟨_, ?_, lists_emit hbest (fun v hv => absurd hv not_mem_nil) (.nil fun k => statesOf_nil)⟩
    rw [nextStates]
    split_ifs <;> rfl
  | cons v versions ih =>
    rw [pairwise_cons] at hsorted
    rw [nextStates]
    by_cases hkey : v.key = key
    · obtain rfl := hkey
      rw [if_pos rfl]
      simp only [← pendingStates_cons] at hS
      obtain ⟨best', hconsider, hbest'⟩ := considerEntry_newest
        ((hS v.key).mono (by rw [pendingStates, if_pos rfl]; exact Set.subset_union_left)) hbest
      rw [hconsider]
      obtain ⟨entries, hentries, hlists⟩ := ih hsorted.2 hsorted.1 hS hbest'
      exact ⟨entries, hentries, hlists.congr pendingStates_cons⟩
    · rw [if_neg hkey]
      have hahead : Ahead reverse key v.key :=
        ahead_of_not_ahead (hfirst v mem_cons_self) (Ne.symm hkey)
      have hafter : ∀ w ∈ v :: versions, Ahead reverse key w.key := by
        intro w hw
        rcases mem_cons.1 hw with rfl | hw
        exacts [hahead, hahead.of_not_ahead (hsorted.1 w hw)]
      -- The next run starts with `v`, of which nothing has been seen.
      have hS' : ∀ k,
          Set.InjOn age (pendingStates q v.key (∅ ∪ statesOf [v] v.key q) versions k) := by
        intro k
        rw [pendingStates_cons, pendingStates, ite_self, Set.empty_union]
        exact (hS k).mono Set.subset_union_right
      obtain ⟨best', hconsider, hbest'⟩ := @considerEntry_newest q v ∅ .absent
        ((hS' v.key).mono (by rw [pendingStates, if_pos rfl]; exact Set.subset_union_left)) .empty
      rw [hconsider]
      obtain ⟨entries, hentries, hlists⟩ := ih hsorted.2 hsorted.1 hS' hbest'
      refine ⟨_, ?_, lists_emit hbest hafter (hlists.congr fun k => ?_)⟩
      · simp only [map_append, hentries]
        split_ifs <;> rfl
      · rw [pendingStates_cons, pendingStates, ite_self, Set.empty_union]

/-- The cursor of an SST. -/
theorem SstContents.lists_rawStateScan {d : SstContents} (hsorted : d.VersionSorted)
    (range : ScanRange) (hS : ∀ k, Set.InjOn age (d.statesAt k range.sequence)) :
    ∃ entries, d.rawStateScan range = entries.map .ok ∧
      Lists range.reverse entries (range.within d.statesAt) := by
  have hmem : ∀ v, v ∈ range.directed (d.versions.filter fun v => range.contains v.key) ↔
      v ∈ d.versions ∧ range.contains v.key := fun v => by simp
  have hdirected : (range.directed (d.versions.filter fun v => range.contains v.key)).Pairwise
      fun v w => ¬ Ahead range.reverse w.key v.key := by
    refine pairwise_directed (R := fun reverse (v w : RawSstVersion) =>
      ¬ Ahead reverse w.key v.key) ((hsorted.sublist filter_sublist).imp ?_)
      fun _ _ h => h
    rintro v w (h | ⟨h, -⟩)
    exacts [h.not_gt, fun h' => h'.ne h.symm]
  have hstates : ∀ k, statesOf (range.directed (d.versions.filter fun v => range.contains v.key)) k
      range.sequence = range.within d.statesAt k := by
    intro k
    ext state
    simp only [mem_statesOf, hmem, ScanRange.within]
    constructor
    · rintro ⟨v, ⟨hv, hc⟩, rfl, hq⟩
      exact ⟨hc, v, hv, rfl, hq⟩
    · rintro ⟨hc, v, hv, rfl, hq⟩
      exact ⟨v, ⟨hv, hc⟩, rfl, hq⟩
  rw [rawStateScan]
  generalize range.directed (d.versions.filter fun v => range.contains v.key) = versions at *
  cases versions with
  | nil => exact ⟨[], rfl, .nil fun k => by rw [← hstates, statesOf_nil]⟩
  | cons v versions =>
    have hpending : ∀ k, pendingStates range.sequence v.key ∅ (v :: versions) k =
        range.within d.statesAt k := by
      intro k
      rw [pendingStates, ite_self, Set.empty_union, hstates]
    have hfirst : ∀ w ∈ v :: versions, ¬ Ahead range.reverse w.key v.key := by
      intro w hw
      rcases mem_cons.1 hw with rfl | hw
      exacts [not_ahead_self, (pairwise_cons.1 hdirected).1 w hw]
    obtain ⟨entries, hentries, hlists⟩ := @lists_nextStates _ _ _ _ ∅ .absent hdirected hfirst
      (fun k => by rw [hpending]; exact (hS k).mono fun state h => h.2) .empty
    exact ⟨entries, hentries, hlists.congr hpending⟩

end Sst

/-! ## What a source still has to tell -/

/-- The source stands at the entry, and then yields the other entries, one after
    another. It has found some range tombstones, and it still finds others on the way:
    only such as cover keys after the one that it stands at. -/
inductive Ready (reverse : Bool) : Option (MidgeResult StateEntry) → SnapshotStateIterator →
    List StateEntry → Set RangeTombstone → Prop
  | done {iterator : SnapshotStateIterator} {tombstones : Set RangeTombstone}
      (heq : tombstones = {t | t ∈ iterator.openedTombstones}) :
      Ready reverse none iterator [] tombstones
  | entry {iterator : SnapshotStateIterator} {e : StateEntry} {rest : List StateEntry}
      {later tombstones : Set RangeTombstone}
      (hrest : Ready reverse iterator.drained.next.1 iterator.drained.next.2 rest later)
      (hlater : ∀ t ∈ later, ∀ k, t.Covers k → Ahead reverse e.1 k)
      (heq : tombstones = {t | t ∈ iterator.openedTombstones} ∪ later) :
      Ready reverse (some (.ok e)) iterator (e :: rest) tombstones

variable {reverse : Bool}

theorem ready_memory (entries : List StateEntry) :
    Ready reverse (memory entries).next.1
      (memory entries).next.2 entries ∅ := by
  induction entries with
  | nil =>
    exact .done (by simp [SnapshotStateIterator.next, openedTombstones])
  | cons e entries ih =>
    exact .entry ih (fun t ht => ht.elim)
      (by simp [SnapshotStateIterator.next, openedTombstones])

theorem ready_sst (entries : List StateEntry) :
    Ready reverse (sst (entries.map .ok)).next.1
      (sst (entries.map .ok)).next.2 entries ∅ := by
  induction entries with
  | nil =>
    exact .done (by simp [SnapshotStateIterator.next, openedTombstones])
  | cons e entries ih =>
    exact .entry ih (fun t ht => ht.elim)
      (by simp [SnapshotStateIterator.next, openedTombstones])

/-! ## Runs of files -/

/-- The range tombstones of the files opened. -/
def foundTombstones (events : List LevelEvent) : List RangeTombstone :=
  events.flatMap fun event => match event with
    | .opened tombstones => tombstones
    | .entry _ => []

@[simp]
theorem foundTombstones_nil : foundTombstones [] = [] := rfl

@[simp]
theorem foundTombstones_opened (tombstones : List RangeTombstone) (events : List LevelEvent) :
    foundTombstones (.opened tombstones :: events) = tombstones ++ foundTombstones events := rfl

@[simp]
theorem foundTombstones_entry (result : MidgeResult StateEntry) (events : List LevelEvent) :
    foundTombstones (.entry result :: events) = foundTombstones events := rfl

@[simp]
theorem foundTombstones_append (events events' : List LevelEvent) :
    foundTombstones (events ++ events') = foundTombstones events ++ foundTombstones events' := by
  simp [foundTombstones]

theorem mem_foundTombstones {events : List LevelEvent} {t : RangeTombstone} :
    t ∈ foundTombstones events ↔ ∃ ts, .opened ts ∈ events ∧ t ∈ ts := by
  induction events with
  | nil => simp
  | cons event events ih => cases event <;> simp [ih, or_and_right, exists_or]

/-- The states of a key that are read. -/
def entryStates (events : List LevelEvent) (k : Key) : Set KeyState :=
  {state | .entry (.ok (k, state)) ∈ events}

theorem entryStates_nil {k : Key} : entryStates [] k = ∅ := by
  ext
  simp [entryStates]

/-- An event after an entry is not for keys before it. -/
def Follows (reverse : Bool) : LevelEvent → LevelEvent → Prop
  | .entry (.ok e), .entry (.ok e') => ¬ Ahead reverse e'.1 e.1
  | .entry (.ok e), .opened ts => ∀ t ∈ ts, ∀ k, t.Covers k → ¬ Ahead reverse k e.1
  | _, _ => True

/-- A run of files that can be read, in the direction of the scan. -/
structure Orderly (reverse : Bool) (events : List LevelEvent) : Prop where
  follows : events.Pairwise (Follows reverse)
  read : ∀ result, .entry result ∈ events → ∃ e : StateEntry, result = .ok e ∧ e.2 ≠ .absent
  agree : ∀ k, Set.InjOn age (entryStates events k)

theorem Orderly.of_append {l events : List LevelEvent} (h : Orderly reverse (l ++ events)) :
    Orderly reverse events :=
  ⟨(pairwise_append.1 h.follows).2.1,
    fun result hr => h.read result (mem_append_right _ hr),
    fun k => (h.agree k).mono fun _ hs => mem_append_right _ hs⟩

namespace SstLevelStateIterator

/-- What is still ahead, the entry read ahead included. -/
def ahead (level : SstLevelStateIterator) : List LevelEvent :=
  level.pending.toList.map .entry ++ level.events

/-- A cursor skips to the first entry. -/
theorem nextRaw_spec (events : List LevelEvent) (opened : List RangeTombstone) :
    (nextRaw events opened = (none, ⟨[], none, opened ++ foundTombstones events⟩) ∧
      ∀ result, .entry result ∉ events) ∨
    ∃ before result after, events = before ++ .entry result :: after ∧
      (∀ result, .entry result ∉ before) ∧
      nextRaw events opened = (some result, ⟨after, none, opened ++ foundTombstones before⟩) := by
  induction events generalizing opened with
  | nil => exact .inl ⟨by simp [nextRaw], by simp⟩
  | cons event events ih =>
    cases event with
    | opened ts =>
      rcases ih (opened ++ ts) with ⟨hnext, hno⟩ | ⟨before, result, after, rfl, hbefore, hnext⟩
      · refine .inl ⟨?_, by simpa using hno⟩
        rw [nextRaw, hnext]
        simp
      · refine .inr ⟨.opened ts :: before, result, after, rfl, by simpa using hbefore, ?_⟩
        rw [nextRaw, hnext]
        simp
    | entry result => exact .inr ⟨[], result, events, rfl, by simp, by simp [nextRaw]⟩

/-- A cursor merges the entries of a key, up to the first entry of another one. -/
theorem mergeKey_spec {reverse : Bool} {key : Key} {S : Set KeyState} {best : KeyState}
    {events : List LevelEvent} {opened : List RangeTombstone} (ho : Orderly reverse events)
    (hS : Set.InjOn age (S ∪ entryStates events key)) (hbest : IsNewest age S (some best)) :
    ∃ taken rest state level, events = taken ++ rest ∧
      mergeKey key (some best) events opened = (some (.ok (key, state)), level) ∧
      level.ahead = rest ∧ level.openedTombstones = opened ++ foundTombstones taken ∧
      (∀ e, .entry (.ok e) ∈ taken → e.1 = key) ∧
      IsNewest age (S ∪ entryStates taken key) (some state) ∧
      (rest = [] ∨ ∃ e rest', rest = .entry (.ok e) :: rest' ∧ e.1 ≠ key) := by
  induction events generalizing S best opened with
  | nil =>
    refine ⟨[], [], best, _, rfl, rfl, rfl, by simp, by simp, ?_, .inl rfl⟩
    rwa [entryStates_nil, Set.union_empty]
  | cons event events ih =>
    have ho' : Orderly reverse events := Orderly.of_append (l := [event]) ho
    cases event with
    | opened ts =>
      have hskip : ∀ events, entryStates (.opened ts :: events) key = entryStates events key := by
        intro events
        ext
        simp [entryStates]
      rw [hskip] at hS
      obtain ⟨taken, rest, state, level, rfl, hmerge, hahead, hopened, htaken, hstate, hrest⟩ :=
        @ih S best (opened ++ ts) ho' hS hbest
      refine ⟨.opened ts :: taken, rest, state, level, rfl, ?_, hahead, ?_, ?_, ?_, hrest⟩
      · rw [mergeKey, hmerge]
      · rw [hopened, foundTombstones_opened, append_assoc]
      · simpa using htaken
      · rwa [hskip]
    | entry result =>
      obtain ⟨⟨candidate, st⟩, rfl, hpresent⟩ := ho.read result mem_cons_self
      by_cases hkey : candidate = key
      · obtain rfl := hkey
        have hinsert : ∀ events, S ∪ entryStates (.entry (.ok (candidate, st)) :: events) candidate =
            insert st S ∪ entryStates events candidate := by
          intro events
          ext state
          simp only [entryStates, Set.mem_union, Set.mem_ofPred_eq, mem_cons,
            LevelEvent.entry.injEq, Except.ok.injEq, Prod.mk.injEq, true_and, Set.mem_insert_iff]
          rw [or_left_comm, or_assoc]
        rw [hinsert] at hS
        obtain ⟨best', hmerge, hbest'⟩ := mergeBestState_newest
          (hS.mono Set.subset_union_left) hpresent hbest
        cases best' with
        | none => exact absurd (show insert st S = ∅ from hbest') (Set.insert_nonempty st S).ne_empty
        | some best' =>
          obtain ⟨taken, rest, state, level, rfl, hrun, hahead, hopened, htaken, hstate, hrest⟩ :=
            @ih _ _ opened ho' hS hbest'
          refine ⟨.entry (.ok (candidate, st)) :: taken, rest, state, level, rfl, ?_, hahead, ?_, ?_,
            ?_, hrest⟩
          · rw [mergeKey, if_pos rfl, hmerge]
            exact hrun
          · rw [hopened, foundTombstones_entry]
          · intro e he
            rcases mem_cons.1 he with heq | he
            · cases heq
              rfl
            · exact htaken e he
          · rwa [hinsert]
      · refine ⟨[], _, best, _, rfl, by rw [mergeKey, if_neg hkey]; rfl, rfl, by simp, by simp, ?_,
          .inr ⟨_, _, rfl, hkey⟩⟩
        rwa [entryStates_nil, Set.union_empty]

/-- How a cursor starts: with the entry read ahead, or with the next one. -/
theorem next_spec {level : SstLevelStateIterator} (hopened : level.openedTombstones = []) :
    ((∀ result, .entry result ∉ level.ahead) ∧ ∃ level', level.next = (none, level') ∧
      level'.openedTombstones = foundTombstones level.ahead) ∨
    ∃ before result after, level.ahead = before ++ .entry result :: after ∧
      (∀ result, .entry result ∉ before) ∧
      ∀ key state best, result = .ok (key, state) → mergeBestState none state = .ok best →
        level.next = mergeKey key best after (foundTombstones before) := by
  cases hpending : level.pending with
  | some result =>
    refine .inr ⟨[], result, level.events, by simp [ahead, hpending], by simp, ?_⟩
    rintro key state best rfl hbest
    simp [next, mergeFrom, hpending, hbest, hopened]
  | none =>
    have hahead : level.ahead = level.events := by simp [ahead, hpending]
    rw [hahead]
    rcases nextRaw_spec level.events [] with ⟨hnext, hno⟩ |
      ⟨before, result, after, heq, hbefore, hnext⟩
    · refine .inl ⟨hno, ⟨[], none, foundTombstones level.events⟩, ?_, rfl⟩
      simp [next, mergeFrom, hpending, hopened, hnext]
    · refine .inr ⟨before, result, after, heq, hbefore, ?_⟩
      rintro key state best rfl hbest
      simp [next, mergeFrom, hpending, hopened, hnext, hbest]

end SstLevelStateIterator

/-- The cursor over a run of files: when it yields a key, the files not opened yet
    come after the entry read ahead. -/
theorem level_ready {level : SstLevelStateIterator} (ho : Orderly reverse level.ahead)
    (hopened : level.openedTombstones = []) :
    ∃ entries, Ready reverse (sstLevel level).next.1
        (sstLevel level).next.2 entries
        {t | t ∈ foundTombstones level.ahead} ∧
      Lists reverse entries (entryStates level.ahead) := by
  induction hn : level.ahead.length using Nat.strong_induction_on generalizing level with
  | _ n ih =>
    rcases level.next_spec hopened with ⟨hno, level', hnext, hfound⟩ |
      ⟨before, result, after, hahead, hbefore, hnext⟩
    · refine ⟨[], ?_, .nil fun k => ?_⟩
      · simp only [SnapshotStateIterator.next, hnext]
        exact .done (by rw [openedTombstones, hfound])
      · exact Set.eq_empty_iff_forall_notMem.2 fun state h => hno _ h
    · obtain ⟨⟨key, first⟩, rfl, hpresent⟩ := ho.read result (by rw [hahead]; simp)
      rw [hahead] at ho
      have hafter := ho.of_append
      obtain ⟨hfirst, hfollows⟩ := pairwise_cons.1 hafter.follows
      have hstates : ∀ k, entryStates (before ++ .entry (.ok (key, first)) :: after) k =
          entryStates (.entry (.ok (key, first)) :: after) k := by
        intro k
        ext state
        simp [entryStates, hbefore]
      have hkey : ∀ events, entryStates (.entry (.ok (key, first)) :: events) key =
          {first} ∪ entryStates events key := by
        intro events
        ext state
        simp [entryStates]
      have hS : Set.InjOn age ({first} ∪ entryStates after key) := by
        rw [← hkey]
        exact hafter.agree key
      obtain ⟨taken, rest, state, level', rfl, hmerge, hlevel, hfound, htaken, hstate, hrest⟩ :=
        @SstLevelStateIterator.mergeKey_spec reverse key {first} first after (foundTombstones before)
          (Orderly.of_append (l := [_]) hafter) hS ⟨rfl, by rintro _ rfl; exact le_rfl⟩
      rw [← hnext key first (some first) rfl (by rw [mergeBestState, if_neg hpresent]; rfl)] at hmerge
      -- What is left is for keys after `key`.
      have hrest_ahead : (∀ e, .entry (.ok e) ∈ rest → Ahead reverse key e.1) ∧
          ∀ t ∈ foundTombstones rest, ∀ k, t.Covers k → Ahead reverse key k := by
        rcases hrest with rfl | ⟨e, rest', rfl, hne⟩
        · simp
        · have he : Ahead reverse key e.1 :=
            ahead_of_not_ahead (hfirst (.entry (.ok e)) (by simp)) hne.symm
          have hrest' := (pairwise_cons.1 (pairwise_append.1 hfollows).2.1).1
          refine ⟨fun e' he' => ?_, fun t ht k hk => ?_⟩
          · rcases mem_cons.1 he' with heq | he'
            · cases heq
              exact he
            · exact he.of_not_ahead (hrest' (.entry (.ok e')) he')
          · rw [foundTombstones_entry] at ht
            obtain ⟨ts, hts, ht⟩ := mem_foundTombstones.1 ht
            exact he.of_not_ahead (hrest' (.opened ts) hts t ht k hk)
      have hdrained :
          ({ level' with openedTombstones := [] } : SstLevelStateIterator).ahead = rest :=
        hlevel
      obtain ⟨entries, hready, hlists⟩ := @ih rest.length
        (by rw [← hn, hahead]; simp only [length_append, length_cons]; omega)
        { level' with openedTombstones := [] }
        (by rw [hdrained]; exact Orderly.of_append (l := _ :: taken) hafter) rfl
        (by rw [hdrained])
      rw [hdrained] at hready hlists
      refine ⟨(key, state) :: entries, ?_, ?_⟩
      · simp only [SnapshotStateIterator.next, hmerge]
        refine .entry hready (fun t ht => hrest_ahead.2 t ht) ?_
        ext t
        simp [hahead, openedTombstones, hfound, or_assoc]
      · rw [hahead]
        refine hlists.cons (fun k hk => ?_) ?_ fun k hk => ?_
        · obtain ⟨st, hst⟩ := hk
          exact hrest_ahead.1 _ hst
        · have hnone : entryStates rest key = ∅ := Set.eq_empty_iff_forall_notMem.2
            fun st hst => (hrest_ahead.1 _ hst).ne rfl
          rw [hstates, hkey, show entryStates (taken ++ rest) key = entryStates taken key ∪
            entryStates rest key by ext; simp [entryStates], hnone, Set.union_empty]
          exact hstate
        · ext st
          rw [hstates]
          simp only [entryStates, Set.mem_ofPred_eq, mem_cons, mem_append,
            LevelEvent.entry.injEq, Except.ok.injEq, Prod.mk.injEq, hk, false_and, false_or]
          exact or_iff_right fun h => hk (htaken _ h)

end Midge
