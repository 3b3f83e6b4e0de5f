import Midge.Read.ScanStreams

/-!
# The rounds of a scan

Each source of a scan still has a list of entries to tell (`Ready`). A round takes
the first key of all of them, from every source that stands at it. The sources
yield their keys in order, so that this is all they have to tell of the key; and
the range tombstones that they have not found yet are for later keys. So the round
decides the key by its newest state and the newest range tombstone covering it
(`Running.nextVisibleFrom`), and the whole scan yields the rows so decided, in
order (`Running.drains`).
-/

namespace Midge

open List SnapshotScan

/-- What a source still has to tell: entries, and range tombstones on the way. -/
abbrev Share := List StateEntry × Set RangeTombstone

/-- The source has the share to tell. -/
def Feeds (reverse : Bool) (source : SnapshotStateSource) (share : Share) : Prop :=
  if source.needsAdvance then
    source.iterator.openedTombstones = [] ∧
      Ready reverse source.iterator.next.1 source.iterator.next.2 share.1 share.2
  else Ready reverse source.head source.iterator share.1 share.2

/-- The source stands at the first entry of the share, and has handed over all the
    range tombstones that may cover its key. -/
structure StandsAt (reverse : Bool) (source : SnapshotStateSource) (share : Share) : Prop where
  current : source.needsAdvance = false
  head : source.head = share.1.head?.map .ok
  drained : source.iterator.openedTombstones = []
  ready : Ready reverse source.head source.iterator share.1 share.2
  later : ∀ t ∈ share.2, ∀ k, t.Covers k → ∃ e, share.1.head? = some e ∧ Ahead reverse e.1 k

namespace SnapshotStateIterator

variable {iterator : SnapshotStateIterator}

@[simp]
theorem openedTombstones_drained : iterator.drained.openedTombstones = [] := by
  cases iterator <;> rfl

@[simp]
theorem drained_drained : iterator.drained.drained = iterator.drained := by
  cases iterator <;> rfl

theorem drained_eq (h : iterator.openedTombstones = []) : iterator.drained = iterator := by
  cases iterator with
  | memory | sst => rfl
  | sstLevel level =>
    obtain ⟨events, pending, opened⟩ := level
    simp only [openedTombstones] at h
    rw [drained, h]

end SnapshotStateIterator

variable {sources : List SnapshotStateSource} {shares : List Share}

section Rounds

variable {reverse : Bool} {source : SnapshotStateSource} {share : Share}

/-- Going on to the next entry, and handing over the range tombstones found. -/
theorem Feeds.advance (h : Feeds reverse source share) :
    ∃ later, StandsAt reverse
        { source.advanceIfNeeded with iterator := source.advanceIfNeeded.iterator.drained }
        (share.1, later) ∧
      share.2 = {t | t ∈ source.advanceIfNeeded.iterator.openedTombstones} ∪ later := by
  have hready : Ready reverse source.advanceIfNeeded.head source.advanceIfNeeded.iterator
      share.1 share.2 ∧ source.advanceIfNeeded.needsAdvance = false := by
    rw [Feeds] at h
    rw [SnapshotStateSource.advanceIfNeeded]
    split_ifs at h ⊢ with hadvance
    · exact ⟨h.2, rfl⟩
    · exact ⟨h, by simpa using hadvance⟩
  obtain ⟨hready, hcurrent⟩ := hready
  generalize source.advanceIfNeeded = source at *
  obtain ⟨iterator, head, needsAdvance⟩ := source
  obtain ⟨entries, tombstones⟩ := share
  simp only at hready hcurrent ⊢
  cases hready with
  | done heq =>
    refine ⟨∅, ⟨hcurrent, rfl, by simp, .done (by simp), fun t ht => ht.elim⟩, ?_⟩
    rw [heq, Set.union_empty]
  | @entry _ e rest later _ hrest hlater heq =>
    refine ⟨later, ⟨hcurrent, rfl, by simp, .entry ?_ hlater (by simp), ?_⟩, heq⟩
    · rwa [SnapshotStateIterator.drained_drained]
    · exact fun t ht k hk => ⟨e, rfl, hlater t ht k hk⟩

theorem RangeCoverSweep.Stands.insertAll {sweep : RangeCoverSweep} {ranges : Set RangeTombstone}
    (h : sweep.Stands ranges) (tombstones : List RangeTombstone) :
    (sweep.insertAll tombstones).Stands ({t | t ∈ tombstones} ∪ ranges) ∧
      (sweep.insertAll tombstones).reverse = sweep.reverse ∧
      (sweep.insertAll tombstones).position = sweep.position := by
  induction tombstones generalizing sweep ranges with
  | nil => exact ⟨by simpa [RangeCoverSweep.insertAll] using h, rfl, rfl⟩
  | cons t tombstones ih =>
    obtain ⟨hstands, hreverse, hposition⟩ := ih (h.insert t)
    refine ⟨?_, hreverse.trans (insert_reverse ..), hposition.trans (insert_position ..)⟩
    have hset : {t' | t' ∈ t :: tombstones} ∪ ranges =
        {t' | t' ∈ tombstones} ∪ Insert.insert t ranges := by
      ext t'
      simp only [Set.mem_union, Set.mem_ofPred_eq, mem_cons, Set.mem_insert_iff]
      rw [or_assoc]
      exact or_left_comm
    rw [hset]
    exact hstands

/-- All the range tombstones, those handed over and those still to be found. -/
def allTombstones (ranges : Set RangeTombstone) (shares : List Share) : Set RangeTombstone :=
  ranges ∪ {t | ∃ share ∈ shares, t ∈ share.2}

/-- Going on with all the sources. -/
theorem of_advanceSources {cover : RangeCoverSweep} {ranges : Set RangeTombstone}
    (h : List.Forall₂ (Feeds reverse) sources shares) (hcover : cover.Stands ranges) :
    ∃ shares' ranges', List.Forall₂ (StandsAt reverse)
        (SnapshotScan.advanceSources sources cover).1 shares' ∧
      shares'.map Prod.fst = shares.map Prod.fst ∧
      (SnapshotScan.advanceSources sources cover).2.Stands ranges' ∧
      (SnapshotScan.advanceSources sources cover).2.reverse = cover.reverse ∧
      (SnapshotScan.advanceSources sources cover).2.position = cover.position ∧
      allTombstones ranges' shares' = allTombstones ranges shares := by
  induction h generalizing cover ranges with
  | nil => exact ⟨[], ranges, .nil, rfl, hcover, rfl, rfl, rfl⟩
  | @cons source share sources shares hfeeds _ ih =>
    obtain ⟨later, hstands, hshare⟩ := hfeeds.advance
    obtain ⟨hcover', hreverse, hposition⟩ :=
      hcover.insertAll source.advanceIfNeeded.iterator.openedTombstones
    obtain ⟨shares', ranges', hrest, hentries, hcover'', hreverse', hposition', hall⟩ := ih hcover'
    refine ⟨(share.1, later) :: shares', ranges', .cons hstands hrest, by simp [hentries], hcover'',
      hreverse'.trans hreverse, hposition'.trans hposition, ?_⟩
    ext t
    have ht := Set.ext_iff.1 hall t
    simp only [allTombstones, Set.mem_union, Set.mem_ofPred_eq, exists_mem_cons_iff] at ht ⊢
    rw [or_left_comm, ht, hshare]
    simp only [Set.mem_union, Set.mem_ofPred_eq]
    tauto

/-! ## Taking a key -/

/-- The states of a key that the sources still have to tell. -/
def statesIn (shares : List Share) (k : Key) : Set KeyState :=
  {state | ∃ share ∈ shares, (k, state) ∈ share.1}

/-- The share without the entry of the key, if it is the first one. -/
def Share.dropKey (key : Key) (share : Share) : Share :=
  match share with
  | ([], tombstones) => ([], tombstones)
  | (e :: rest, tombstones) => if e.1 = key then (rest, tombstones) else (e :: rest, tombstones)

/-- No source has an error to tell. -/
theorem takeSourceError_eq_none (h : List.Forall₂ (StandsAt reverse) sources shares) :
    SnapshotScan.takeSourceError sources = none := by
  induction h with
  | nil => rfl
  | @cons source share sources shares hstands _ ih =>
    rw [takeSourceError, findSome?_cons] at *
    rw [hstands.head]
    cases share.1 <;> exact ih

/-- The key found is the first one of some source, and no source stands before it. -/
def IsFirst (reverse : Bool) (shares : List Share) (selected : Option Key) : Prop :=
  (∀ k ∈ selected, ∃ share ∈ shares, ∃ e, share.1.head? = some e ∧ e.1 = k) ∧
    ∀ share ∈ shares, ∀ e, share.1.head? = some e → ∃ k ∈ selected, ¬ Ahead reverse e.1 k

theorem IsFirst.concat {selected : Option Key} {share : Share} (h : IsFirst reverse shares selected)
    (hshare : ∀ e, share.1.head? = some e → ∃ k ∈ selected, ¬ Ahead reverse e.1 k) :
    IsFirst reverse (shares ++ [share]) selected := by
  refine ⟨fun k hk => ?_, fun share' hmem => ?_⟩
  · obtain ⟨share', hmem, hhead⟩ := h.1 k hk
    exact ⟨share', mem_append_left _ hmem, hhead⟩
  · rcases mem_append.1 hmem with hmem | hmem
    · exact h.2 share' hmem
    · rwa [mem_singleton.1 hmem]

theorem isFirst_nextKey (h : List.Forall₂ (StandsAt reverse) sources shares) :
    IsFirst reverse shares (SnapshotScan.nextKey reverse sources) := by
  -- The sources seen so far are generalized, as is the key selected among them.
  suffices hgen : ∀ (seen : List Share) (selected : Option Key), IsFirst reverse seen selected →
      IsFirst reverse (seen ++ shares)
        (sources.foldl (selectKey reverse) selected) by
    exact hgen [] none ⟨by simp, by simp⟩
  induction h with
  | nil => intro seen selected hseen; simpa using hseen
  | @cons source share sources shares hstands _ ih =>
    intro seen selected hseen
    rw [foldl_cons, ← singleton_append, ← append_assoc]
    refine ih _ _ ?_
    rw [selectKey, hstands.head]
    cases hshare : share.1 with
    | nil => exact hseen.concat (by simp [hshare])
    | cons e rest =>
      simp only [head?_cons, Option.map_some]
      split_ifs with hwins
      · refine ⟨?_, fun share' hshare' e' he' => ⟨e.1, rfl, ?_⟩⟩
        · rintro k ⟨⟩
          exact ⟨share, by simp, e, by simp [hshare], rfl⟩
        · rcases mem_append.1 hshare' with hmem | hmem
          · obtain ⟨k, hk, hnot⟩ := hseen.2 share' hmem e' he'
            rw [Option.mem_def.1 hk] at hwins
            simp only [Option.all_some, decide_eq_true_eq] at hwins
            exact fun h' => hnot (h'.trans hwins)
          · rw [mem_singleton.1 hmem, hshare] at he'
            cases he'
            exact not_ahead_self
      · refine hseen.concat fun e' he' => ?_
        rw [hshare] at he'
        cases he'
        cases selected with
        | none => simp at hwins
        | some k => exact ⟨k, rfl, by simpa using hwins⟩

/-- Taking the key from the sources that stand at it. -/
theorem of_takeKey {key : Key} {sources : List SnapshotStateSource} {shares : List Share}
    {best : Option KeyState} {S : Set KeyState}
    (h : List.Forall₂ (StandsAt reverse) sources shares)
    (hpresent : ∀ share ∈ shares, ∀ e ∈ share.1, e.2 ≠ .absent)
    (hS : Set.InjOn age (S ∪ {state | ∃ share ∈ shares, share.1.head? = some (key, state)}))
    (hbest : IsNewest age S best) :
    ∃ best' sources', SnapshotScan.takeKey key sources best = .ok (best', sources') ∧
      IsNewest age (S ∪ {state | ∃ share ∈ shares, share.1.head? = some (key, state)}) best' ∧
      List.Forall₂ (Feeds reverse) sources' (shares.map (Share.dropKey key)) := by
  induction h generalizing S best with
  | nil => exact ⟨best, [], rfl, by simpa using hbest, .nil⟩
  | @cons source share sources shares hstands _ ih =>
    have hpresent' := fun share' hmem => hpresent share' (mem_cons_of_mem share hmem)
    have hsplit : S ∪ {state | ∃ share' ∈ share :: shares, share'.1.head? = some (key, state)} =
        ({state | share.1.head? = some (key, state)} ∪ S) ∪
          {state | ∃ share' ∈ shares, share'.1.head? = some (key, state)} := by
      ext state
      simp only [Set.mem_union, Set.mem_ofPred_eq, exists_mem_cons_iff]
      tauto
    rw [hsplit] at hS ⊢
    obtain ⟨entries, tombstones⟩ := share
    have hready := hstands.ready
    rw [hstands.head] at hready
    by_cases hat : ∃ state rest, entries = (key, state) :: rest
    · obtain ⟨state, rest, rfl⟩ := hat
      have hset : {st | ((key, state) :: rest).head? = some (key, st)} ∪ S = insert state S := by
        ext st
        simp [eq_comm]
      simp only [hset] at hS ⊢
      have hstate : state ≠ .absent :=
        hpresent _ mem_cons_self (key, state) mem_cons_self
      obtain ⟨best', hmerge, hbest'⟩ := mergeBestState_newest (hS.mono Set.subset_union_left)
        hstate hbest
      obtain ⟨best'', sources', htake, hbest'', hfeeds⟩ := ih hpresent' hS hbest'
      refine ⟨best'', source.takeHead :: sources', ?_, hbest'', ?_⟩
      · rw [takeKey, SnapshotStateSource.stateOf?, hstands.head]
        simp only [head?_cons, Option.map_some, if_true]
        rw [hmerge]
        change (takeKey key sources best' >>= _) = _
        rw [htake]
        rfl
      · rw [map_cons]
        refine .cons ?_ hfeeds
        simp only [head?_cons, Option.map_some] at hready
        simp only [Share.dropKey, if_true, Feeds, SnapshotStateSource.takeHead, hstands.head,
          head?_cons, Option.map_some, Option.isSome_some]
        refine ⟨hstands.drained, ?_⟩
        cases hready with
        | entry hrest _ heq =>
          rw [SnapshotStateIterator.drained_eq hstands.drained] at hrest
          rw [hstands.drained] at heq
          simp only [not_mem_nil, Set.ofPred_false, Set.empty_union] at heq
          rwa [heq]
    · have hset : {st | entries.head? = some (key, st)} ∪ S = S := by
        refine Set.union_eq_right.2 fun st hst => ?_
        obtain ⟨rest, hrest⟩ := head?_eq_some_iff.1 hst
        exact absurd ⟨st, rest, hrest⟩ hat
      simp only [hset] at hS ⊢
      obtain ⟨best', sources', htake, hbest', hfeeds⟩ := ih hpresent' hS hbest
      refine ⟨best', source :: sources', ?_, hbest', ?_⟩
      · have hnone : source.stateOf? key = none := by
          rw [SnapshotStateSource.stateOf?, hstands.head]
          cases entries with
          | nil => rfl
          | cons e rest =>
            have hne : e.1 ≠ key := fun h => hat ⟨e.2, rest, by rw [← h]⟩
            simp [hne]
        rw [takeKey, hnone]
        change (takeKey key sources best >>= _) = _
        rw [htake]
        rfl
      · rw [map_cons]
        refine .cons ?_ hfeeds
        have hdrop : Share.dropKey key (entries, tombstones) = (entries, tombstones) := by
          cases entries with
          | nil => rfl
          | cons e rest =>
            exact if_neg fun h => hat ⟨e.2, rest, by rw [← h]⟩
        rw [hdrop, Feeds, hstands.current]
        exact hstands.ready

end Rounds

/-! ## How much is left -/

namespace SstLevelStateIterator

theorem length_nextRaw (events : List LevelEvent) (opened : List RangeTombstone) :
    (nextRaw events opened).1.toList.length + (nextRaw events opened).2.events.length ≤
      events.length ∧ (nextRaw events opened).2.pending = none := by
  induction events generalizing opened with
  | nil => simp [nextRaw]
  | cons event events ih =>
    cases event with
    | opened ts =>
      rw [nextRaw]
      exact ⟨(ih _).1.trans (Nat.le_succ _), (ih _).2⟩
    | entry result => simp [nextRaw, Nat.add_comm]

theorem length_mergeKey (key : Key) (best : Option KeyState) (events : List LevelEvent)
    (opened : List RangeTombstone) :
    (mergeKey key best events opened).2.events.length +
      (mergeKey key best events opened).2.pending.toList.length ≤ events.length ∧
      (mergeKey key best events opened).1.isSome := by
  induction events generalizing best opened with
  | nil => simp [mergeKey]
  | cons event events ih =>
    cases event with
    | opened ts =>
      rw [mergeKey]
      exact ⟨(ih _ _).1.trans (Nat.le_succ _), (ih _ _).2⟩
    | entry result =>
      cases result with
      | error error => simp [mergeKey]
      | ok e =>
        rw [mergeKey]
        split_ifs
        · split
          · exact ⟨(ih _ _).1.trans (Nat.le_succ _), (ih _ _).2⟩
          · simp
        · simp

theorem length_mergeFrom {rest : SstLevelStateIterator} (hpending : rest.pending = none)
    (first : Option (MidgeResult StateEntry)) :
    (rest.mergeFrom first).1.toList.length + ((rest.mergeFrom first).2.events.length +
      (rest.mergeFrom first).2.pending.toList.length) ≤ first.toList.length + rest.events.length := by
  rcases first with - | - | ⟨key, state⟩
  · simp [mergeFrom, hpending]
  · simp [mergeFrom, hpending]
  · rw [mergeFrom]
    split
    next best _ =>
      obtain ⟨hlength, hsome⟩ := length_mergeKey key best rest.events rest.openedTombstones
      obtain ⟨e, he⟩ := Option.isSome_iff_exists.1 hsome
      rw [he]
      simp only [Option.toList_some, length_singleton]
      omega
    next => simp [hpending]

theorem remaining_next (level : SstLevelStateIterator) :
    level.next.1.toList.length + (level.next.2.events.length + level.next.2.pending.toList.length) ≤
      level.events.length + level.pending.toList.length := by
  cases hp : level.pending with
  | some entry =>
    rw [next, hp]
    refine (length_mergeFrom rfl _).trans ?_
    simp [Nat.add_comm]
  | none =>
    obtain ⟨hlength, hnone⟩ := length_nextRaw level.events level.openedTombstones
    rw [next, hp]
    exact (length_mergeFrom hnone _).trans (hlength.trans (Nat.le_add_right _ _))

end SstLevelStateIterator

theorem SnapshotStateIterator.remaining_next (iterator : SnapshotStateIterator) :
    iterator.next.1.toList.length + iterator.next.2.remaining ≤ iterator.remaining := by
  cases iterator with
  | memory entries | sst entries => cases entries <;> simp [next, remaining, Nat.add_comm]
  | sstLevel level => exact level.remaining_next

theorem SnapshotStateIterator.remaining_drained (iterator : SnapshotStateIterator) :
    iterator.drained.remaining = iterator.remaining := by
  cases iterator <;> rfl

theorem Ready.length_le {reverse : Bool} {head : Option (MidgeResult StateEntry)}
    {iterator : SnapshotStateIterator} {entries : List StateEntry} {tombstones : Set RangeTombstone}
    (h : Ready reverse head iterator entries tombstones) :
    entries.length ≤ head.toList.length + iterator.remaining := by
  induction h with
  | done => simp
  | @entry iterator e rest later tombstones _ _ _ ih =>
    have hnext := iterator.drained.remaining_next
    rw [iterator.remaining_drained] at hnext
    simp only [length_cons, Option.toList_some, length_nil]
    omega

theorem Feeds.length_le {reverse : Bool} {source : SnapshotStateSource} {share : Share}
    (h : Feeds reverse source share) :
    share.1.length ≤ source.head.toList.length + source.iterator.remaining := by
  rw [Feeds] at h
  split_ifs at h
  · have hlength := h.2.length_le
    have hnext := source.iterator.remaining_next
    omega
  · exact h.length_le

/-! ## The first key -/

/-- The entries that the sources still have to tell: in order, after the last key
    taken, and without conflicts. -/
structure Mergeable (reverse : Bool) (position : Option Key) (shares : List Share) : Prop where
  sorted : ∀ share ∈ shares, share.1.Pairwise fun e e' => Ahead reverse e.1 e'.1
  present : ∀ share ∈ shares, ∀ e ∈ share.1, e.2 ≠ .absent
  agree : ∀ k, Set.InjOn age (statesIn shares k)
  ahead : ∀ p ∈ position, ∀ share ∈ shares, ∀ e ∈ share.1, Ahead reverse p e.1

/-- The next key: some source stands at it, and none before it. -/
structure IsNext (reverse : Bool) (shares : List Share) (key : Key) : Prop where
  at_head : ∃ share ∈ shares, ∃ e, share.1.head? = some e ∧ e.1 = key
  first : ∀ share ∈ shares, ∀ e, share.1.head? = some e → ¬ Ahead reverse e.1 key

/-- How many entries the sources have to tell. -/
def entryCount (shares : List Share) : ℕ := (shares.map fun share => share.1.length).sum

section Shares

variable {reverse : Bool} {position : Option Key} {shares shares' : List Share} {key : Key}

theorem statesIn_eq (shares : List Share) (k : Key) :
    statesIn shares k = {state | ∃ entries ∈ shares.map Prod.fst, (k, state) ∈ entries} := by
  ext state
  simp [statesIn]

theorem entryCount_eq (shares : List Share) :
    entryCount shares = ((shares.map Prod.fst).map List.length).sum := by
  rw [map_map]
  rfl

/-- Only the entries matter. -/
theorem Mergeable.congr (h : Mergeable reverse position shares)
    (heq : shares'.map Prod.fst = shares.map Prod.fst) : Mergeable reverse position shares' := by
  have hmem : ∀ share' ∈ shares', ∃ share ∈ shares, share.1 = share'.1 := by
    intro share' hshare'
    rw [← mem_map, ← heq]
    exact mem_map_of_mem hshare'
  refine ⟨fun share' hs' => ?_, fun share' hs' => ?_, fun k => ?_, fun p hp share' hs' => ?_⟩
  · obtain ⟨share, hs, he⟩ := hmem share' hs'
    exact he ▸ h.sorted share hs
  · obtain ⟨share, hs, he⟩ := hmem share' hs'
    exact he ▸ h.present share hs
  · rw [statesIn_eq, heq, ← statesIn_eq]
    exact h.agree k
  · obtain ⟨share, hs, he⟩ := hmem share' hs'
    exact he ▸ h.ahead p hp share hs

/-- The entries of a sorted list, when the key is not after the first of them. -/
theorem key_le_of_mem {entries : List StateEntry}
    (hsorted : entries.Pairwise fun e e' => Ahead reverse e.1 e'.1)
    (hfirst : ∀ e, entries.head? = some e → ¬ Ahead reverse e.1 key) {e : StateEntry}
    (he : e ∈ entries) : entries.head? = some e ∧ e.1 = key ∨ Ahead reverse key e.1 := by
  cases entries with
  | nil => simp at he
  | cons first rest =>
    have hnot := hfirst first rfl
    rcases mem_cons.1 he with rfl | he
    · by_cases hkey : e.1 = key
      exacts [.inl ⟨rfl, hkey⟩, .inr (ahead_of_not_ahead hnot (Ne.symm hkey))]
    · exact .inr (((pairwise_cons.1 hsorted).1 e he).of_not_ahead_left hnot)

theorem dropKey_snd (share : Share) : (share.dropKey key).2 = share.2 := by
  obtain ⟨_ | ⟨e, rest⟩, tombstones⟩ := share
  · rfl
  · rw [Share.dropKey]
    split_ifs <;> rfl

theorem allTombstones_dropKey (ranges : Set RangeTombstone) :
    allTombstones ranges (shares.map (Share.dropKey key)) = allTombstones ranges shares := by
  have hfound : {t | ∃ share ∈ shares.map (Share.dropKey key), t ∈ share.2} =
      {t | ∃ share ∈ shares, t ∈ share.2} := by
    ext t
    constructor
    · rintro ⟨_, h, ht⟩
      obtain ⟨share, hshare, rfl⟩ := mem_map.1 h
      exact ⟨share, hshare, dropKey_snd share ▸ ht⟩
    · rintro ⟨share, hshare, ht⟩
      exact ⟨_, mem_map_of_mem hshare, (dropKey_snd share).symm ▸ ht⟩
  rw [allTombstones, hfound, allTombstones]

theorem dropKey_sublist (share : Share) : (share.dropKey key).1.Sublist share.1 := by
  obtain ⟨_ | ⟨e, rest⟩, tombstones⟩ := share
  · exact .refl _
  · rw [Share.dropKey]
    split_ifs
    exacts [sublist_cons_self _ _, .refl _]

/-- What is left of a share is after the key. -/
theorem mem_dropKey {share : Share} (hsorted : share.1.Pairwise fun e e' => Ahead reverse e.1 e'.1)
    (hfirst : ∀ e, share.1.head? = some e → ¬ Ahead reverse e.1 key) {e : StateEntry} :
    e ∈ (share.dropKey key).1 ↔ e ∈ share.1 ∧ Ahead reverse key e.1 := by
  obtain ⟨_ | ⟨first, rest⟩, tombstones⟩ := share
  · simp [Share.dropKey]
  · obtain ⟨hahead, -⟩ := pairwise_cons.1 hsorted
    by_cases hkey : first.1 = key
    · simp only [Share.dropKey, if_pos hkey, mem_cons]
      constructor
      · exact fun h => ⟨.inr h, hkey ▸ hahead e h⟩
      · rintro ⟨rfl | h, h'⟩
        exacts [absurd h' (hkey ▸ not_ahead_self), h]
    · simp only [Share.dropKey, if_neg hkey]
      refine ⟨fun h => ⟨h, (key_le_of_mem hsorted hfirst h).resolve_left ?_⟩, fun h => h.1⟩
      rintro ⟨hhead, heq⟩
      cases hhead
      exact hkey heq

/-- Taking a key that some source stands at leaves fewer entries. -/
theorem entryCount_dropKey_lt (hn : IsNext reverse shares key) :
    entryCount (shares.map (Share.dropKey key)) < entryCount shares := by
  obtain ⟨share, hshare, e, he, hkey⟩ := hn.at_head
  obtain ⟨rest, hrest⟩ := head?_eq_some_iff.1 he
  rw [entryCount, entryCount, map_map]
  refine sum_lt_sum _ _ (fun share _ => (dropKey_sublist share).length_le)
    ⟨share, hshare, ?_⟩
  obtain ⟨entries, tombstones⟩ := share
  simp only at hrest
  simp [hrest, Share.dropKey, hkey]

section

variable (hm : Mergeable reverse position shares) (hn : IsNext reverse shares key)

include hm hn

/-- All that the sources have to tell of the next key is at their heads. -/
theorem Mergeable.heads :
    {state | ∃ share ∈ shares, share.1.head? = some (key, state)} = statesIn shares key := by
  ext state
  constructor
  · rintro ⟨share, hshare, hhead⟩
    exact ⟨share, hshare, mem_of_mem_head? hhead⟩
  · rintro ⟨share, hshare, hin⟩
    rcases key_le_of_mem (hm.sorted share hshare) (hn.first share hshare) hin with h | h
    exacts [⟨share, hshare, h.1⟩, absurd h not_ahead_self]

theorem Mergeable.statesIn_dropKey (k : Key) :
    statesIn (shares.map (Share.dropKey key)) k =
      {state | state ∈ statesIn shares k ∧ Ahead reverse key k} := by
  ext state
  have hmem := fun share hshare => @mem_dropKey reverse key share (hm.sorted share hshare)
    (hn.first share hshare) (k, state)
  constructor
  · rintro ⟨_, hdropped, hin⟩
    obtain ⟨share, hshare, rfl⟩ := mem_map.1 hdropped
    obtain ⟨hin, hlt⟩ := (hmem share hshare).1 hin
    exact ⟨⟨share, hshare, hin⟩, hlt⟩
  · rintro ⟨⟨share, hshare, hin⟩, hlt⟩
    exact ⟨_, mem_map_of_mem hshare, (hmem share hshare).2 ⟨hin, hlt⟩⟩

/-- No key comes before the next one. -/
theorem Mergeable.eq_or_ahead {k : Key} (hk : (statesIn shares k).Nonempty) :
    k = key ∨ Ahead reverse key k := by
  obtain ⟨state, share, hshare, hin⟩ := hk
  exact (key_le_of_mem (hm.sorted share hshare) (hn.first share hshare) hin).imp_left And.right

/-- What is left is again mergeable. -/
theorem Mergeable.dropKey :
    Mergeable reverse (some key) (shares.map (Share.dropKey key)) := by
  refine ⟨fun _ h => ?_, fun _ h e he => ?_, fun k => ?_, fun p hp _ h e he => ?_⟩
  · obtain ⟨share, hs, rfl⟩ := mem_map.1 h
    exact (hm.sorted share hs).sublist (dropKey_sublist share)
  · obtain ⟨share, hs, rfl⟩ := mem_map.1 h
    exact hm.present share hs e ((dropKey_sublist share).mem he)
  · rw [hm.statesIn_dropKey hn]
    exact (hm.agree k).mono fun _ h => h.1
  · obtain ⟨share, hs, rfl⟩ := mem_map.1 h
    cases hp
    exact ((mem_dropKey (hm.sorted share hs) (hn.first share hs)).1 he).2

end

end Shares

/-! ## Rounds -/

/-- The sequences of the range tombstones covering a key. -/
def coverSeqs (tombstones : Set RangeTombstone) (k : Key) : Set ℕ :=
  {seq | ∃ t ∈ tombstones, t.Covers k ∧ t.seq = seq}

namespace SnapshotScan

/-- A scan under way: what its sources have to tell, and the range tombstones. -/
structure Running (scan : SnapshotScan) (shares : List Share) (tombstones : Set RangeTombstone) :
    Prop where
  active : scan.lifecycle = .active
  initialized : scan.initialized = true
  direction : scan.rangeCover.reverse = scan.range.reverse
  feeds : List.Forall₂ (Feeds scan.range.reverse) scan.sources shares
  mergeable : Mergeable scan.range.reverse scan.rangeCover.position shares
  stands : ∃ ranges, scan.rangeCover.Stands ranges ∧ allTombstones ranges shares = tombstones

/-- Whether to yield a row, once the newest state and range tombstone of its key are
    known. -/
def yieldOr (fuel : ℕ) (scan : SnapshotScan) (key : Key) (w : PointReadWalk) :
    MidgeResult (Option (Key × Value) × SnapshotScan) :=
  match w.resolve scan.snapshot.readTimeMillis with
  | none => nextVisibleFrom fuel scan
  | some value => .ok (some (key, value), scan)

theorem yieldOr_some (fuel : ℕ) (scan : SnapshotScan) (key : Key) (best : KeyState)
    (cover : Option ℕ) :
    yieldOr fuel scan key ⟨some best, cover⟩ =
      if cover.any ((stateSequence best).getD 0 ≤ ·) then nextVisibleFrom fuel scan
      else
        match best with
        | .value value _ expiration _ =>
          if isExpiredAt expiration scan.snapshot.readTimeMillis then nextVisibleFrom fuel scan
          else .ok (some (key, value), scan)
        | _ => nextVisibleFrom fuel scan := by
  rw [yieldOr, PointReadWalk.resolve, Option.bind_some]
  by_cases hcover : cover.any ((stateSequence best).getD 0 ≤ ·)
  · simp only [hcover, if_true]
  · simp only [hcover]
    cases best with
    | absent | tombstone => rfl
    | value v seq expiration op =>
      by_cases hexpired : isExpiredAt expiration scan.snapshot.readTimeMillis <;> simp [hexpired]

variable {scan : SnapshotScan} {shares : List Share} {tombstones : Set RangeTombstone}

/-- What is left of a scan once it is past a key. -/
structure Past (scan : SnapshotScan) (shares : List Share) (tombstones : Set RangeTombstone)
    (key : Key) (scan' : SnapshotScan) (shares' : List Share) : Prop where
  running : scan'.Running shares' tombstones
  range : scan'.range = scan.range
  snapshot : scan'.snapshot = scan.snapshot
  count : entryCount shares' < entryCount shares
  states : ∀ k, statesIn shares' k =
    {state | state ∈ statesIn shares k ∧ Ahead scan.range.reverse key k}

theorem Past.trans {key key' : Key} {scan₁ scan₂ : SnapshotScan} {shares₁ shares₂ : List Share}
    (h : scan.Past shares tombstones key scan₁ shares₁)
    (h' : scan₁.Past shares₁ tombstones key' scan₂ shares₂)
    (hahead : Ahead scan.range.reverse key key') :
    scan.Past shares tombstones key' scan₂ shares₂ := by
  refine ⟨h'.running, h'.range.trans h.range, h'.snapshot.trans h.snapshot,
    h'.count.trans h.count, fun k => ?_⟩
  rw [h'.states, h.states, h.range]
  ext state
  exact ⟨fun h => ⟨h.1.1, h.2⟩, fun h => ⟨⟨h.1, hahead.trans h.2⟩, h.2⟩⟩

/-- What a round does: it ends the scan when no entry is left, or it takes the next
    key, and decides it by its newest state and range tombstone. -/
theorem Running.round (h : scan.Running shares tombstones) (fuel : ℕ) :
    (entryCount shares = 0 ∧ ∃ scan', nextVisibleFrom (fuel + 1) scan = .ok (none, scan')) ∨
    ∃ (key : Key) (scan' : SnapshotScan) (shares' : List Share) (w : PointReadWalk),
      scan.Past shares tombstones key scan' shares' ∧
      (∀ k, (statesIn shares k).Nonempty → k = key ∨ Ahead scan.range.reverse key k) ∧
      IsNewest age (statesIn shares key) w.bestState ∧
      IsNewest id (coverSeqs tombstones key) w.coveringTombstoneSeq ∧
      nextVisibleFrom (fuel + 1) scan = yieldOr fuel scan' key w := by
  obtain ⟨ranges, hstands, hall⟩ := h.stands
  obtain ⟨shares₁, ranges₁, hstandsAt, hentries, hcover, hreverse, hposition, hall₁⟩ :=
    of_advanceSources h.feeds hstands
  have hm := h.mergeable.congr hentries
  have hstates : ∀ k, statesIn shares₁ k = statesIn shares k := fun k => by
    rw [statesIn_eq, hentries, ← statesIn_eq]
  have hcount : entryCount shares₁ = entryCount shares := by
    rw [entryCount_eq, hentries, ← entryCount_eq]
  obtain ⟨hselected, hbefore⟩ := isFirst_nextKey hstandsAt
  cases hkey : nextKey scan.range.reverse (advanceSources scan.sources scan.rangeCover).1 with
  | none =>
    rw [hkey] at hbefore
    refine .inl ⟨?_, ?_⟩
    · rw [← hcount, entryCount, sum_eq_zero_iff]
      intro n hn
      obtain ⟨share, hshare, rfl⟩ := mem_map.1 hn
      cases hhead : share.1 with
      | nil => rfl
      | cons e rest =>
        obtain ⟨k, hk, -⟩ := hbefore share hshare e (by rw [hhead]; rfl)
        cases hk
    · simp only [nextVisibleFrom, takeSourceError_eq_none hstandsAt, hkey]
      exact ⟨_, rfl⟩
  | some key =>
    rw [hkey] at hselected hbefore
    have hn : IsNext scan.range.reverse shares₁ key := by
      refine ⟨hselected key rfl, fun share hshare e he => ?_⟩
      obtain ⟨k, hk, hnot⟩ := hbefore share hshare e he
      cases hk
      exact hnot
    obtain ⟨share₀, hshare₀, e₀, he₀, hkey₀⟩ := hn.at_head
    have hheads := hm.heads hn
    obtain ⟨best, sources, htake, hbest, hfeeds⟩ := @of_takeKey _ key _ _ none ∅ hstandsAt
      hm.present (by rw [Set.empty_union, hheads]; exact hm.agree key) .empty
    rw [Set.empty_union, hheads, hstates] at hbest
    have hasked : ∀ p ∈ (advanceSources scan.sources scan.rangeCover).2.position,
        ¬ Ahead (advanceSources scan.sources scan.rangeCover).2.reverse key p := by
      rw [hposition, hreverse, h.direction]
      intro p hp
      have := hm.ahead p hp share₀ hshare₀ e₀ (mem_of_mem_head? he₀)
      exact (hkey₀ ▸ this).not_ahead
    obtain ⟨hmax, hcover'⟩ := hcover.maxCoverSeq hasked
    -- The range tombstones not found yet do not cover the key.
    have hcovers : {seq | ∃ t ∈ ranges₁, t.Covers key ∧ t.seq = seq} = coverSeqs tombstones key := by
      rw [← hall, ← hall₁]
      ext seq
      constructor
      · rintro ⟨t, ht, hc⟩
        exact ⟨t, .inl ht, hc⟩
      · rintro ⟨t, ht | ⟨share, hshare, ht⟩, hc, hs⟩
        · exact ⟨t, ht, hc, hs⟩
        · obtain ⟨source, -, hstand⟩ := forall₂_exists hstandsAt.flip hshare
          obtain ⟨e, he, hlater⟩ := hstand.later t ht key hc
          exact absurd hlater (hn.first share hshare e he)
    rw [hcovers] at hmax
    obtain ⟨b, rfl⟩ : ∃ b, best = some b := by
      cases best with
      | none =>
        have hempty : statesIn shares key = ∅ := hbest
        rw [← hstates, ← hheads] at hempty
        exact absurd ⟨share₀, hshare₀, by rw [he₀, ← hkey₀]⟩
          (Set.eq_empty_iff_forall_notMem.1 hempty e₀.2)
      | some b => exact ⟨b, rfl⟩
    refine .inr ⟨key, { scan with
        sources
        rangeCover := ((advanceSources scan.sources scan.rangeCover).2.maxCoverSeq key).2 },
      shares₁.map (Share.dropKey key),
      ⟨some b, ((advanceSources scan.sources scan.rangeCover).2.maxCoverSeq key).1⟩,
      ⟨⟨h.active, h.initialized, hreverse.trans h.direction, hfeeds, hm.dropKey hn,
        ⟨ranges₁, hcover', ?_⟩⟩, rfl, rfl, ?_, ?_⟩, ?_, hbest, hmax, ?_⟩
    · rw [allTombstones_dropKey, hall₁, hall]
    · exact (entryCount_dropKey_lt hn).trans_eq hcount
    · exact fun k => by rw [hm.statesIn_dropKey hn, hstates]
    · exact fun k hk => hm.eq_or_ahead hn (by rwa [hstates])
    · rw [yieldOr_some]
      simp only [nextVisibleFrom, takeSourceError_eq_none hstandsAt, hkey, htake]
      rfl

/-! ## Rows -/

/-- The rows of a scan: the keys whose newest state is a value that no range
    tombstone hides and that has not expired. -/
def RowAt (readTimeMillis : ℕ) (S : Key → Set KeyState) (C : Key → Set ℕ) (row : Key × Value) :
    Prop :=
  ∃ w : PointReadWalk, IsNewest age (S row.1) w.bestState ∧
    IsNewest id (C row.1) w.coveringTombstoneSeq ∧ w.resolve readTimeMillis = some row.2

section RowAt

variable {readTimeMillis : ℕ} {S : Key → Set KeyState} {C : Key → Set ℕ} {row : Key × Value}

/-- The newest state and range tombstone of a key decide its row. -/
theorem RowAt.resolve (h : RowAt readTimeMillis S C row) (hS : Set.InjOn age (S row.1))
    {w : PointReadWalk} (hbest : IsNewest age (S row.1) w.bestState)
    (hcover : IsNewest id (C row.1) w.coveringTombstoneSeq) :
    w.resolve readTimeMillis = some row.2 := by
  obtain ⟨w', hbest', hcover', hresolve⟩ := h
  obtain ⟨best, cover⟩ := w
  obtain ⟨best', cover'⟩ := w'
  obtain rfl : best = best' := hbest.unique hS hbest'
  obtain rfl : cover = cover' := hcover.unique (Set.injOn_id _) hcover'
  exact hresolve

theorem RowAt.nonempty (h : RowAt readTimeMillis S C row) : (S row.1).Nonempty := by
  obtain ⟨⟨best, cover⟩, hbest, -, hresolve⟩ := h
  cases best with
  | none => cases hresolve
  | some state => exact ⟨state, hbest.mem⟩

end RowAt

/-- The rows that what the sources have to tell leads to. -/
abbrev HasRow (scan : SnapshotScan) (shares : List Share) (tombstones : Set RangeTombstone)
    (row : Key × Value) : Prop :=
  RowAt scan.snapshot.readTimeMillis (statesIn shares) (coverSeqs tombstones) row

/-- The rows after a key. -/
theorem Past.hasRow_iff {key : Key} {scan' : SnapshotScan} {shares' : List Share}
    (h : scan.Past shares tombstones key scan' shares') (row : Key × Value) :
    scan'.HasRow shares' tombstones row ↔
      scan.HasRow shares tombstones row ∧ Ahead scan.range.reverse key row.1 := by
  rw [HasRow, h.snapshot]
  by_cases hahead : Ahead scan.range.reverse key row.1
  · rw [HasRow, RowAt, RowAt, h.states]
    simp [hahead]
  · refine ⟨fun hrow => ?_, fun h => absurd h.2 hahead⟩
    obtain ⟨state, hstate⟩ := hrow.nonempty
    rw [h.states] at hstate
    exact absurd hstate.2 hahead

/-- With enough fuel the scan finds the first row, if there is any. -/
theorem Running.nextVisibleFrom_spec {fuel : ℕ} (h : scan.Running shares tombstones)
    (hfuel : entryCount shares < fuel) :
    (∃ scan', nextVisibleFrom fuel scan = .ok (none, scan') ∧
      ∀ row, ¬ scan.HasRow shares tombstones row) ∨
    ∃ (row : Key × Value) (scan' : SnapshotScan) (shares' : List Share),
      nextVisibleFrom fuel scan = .ok (some row, scan') ∧
      scan.Past shares tombstones row.1 scan' shares' ∧ scan.HasRow shares tombstones row ∧
      ∀ row', scan.HasRow shares tombstones row' →
        row' = row ∨ Ahead scan.range.reverse row.1 row'.1 := by
  induction fuel generalizing scan shares with
  | zero => omega
  | succ fuel ih =>
    rcases h.round fuel with ⟨hzero, scan', hend⟩ |
      ⟨key, scan₁, shares₁, w, hpast, hfirst, hbest, hcover, hstep⟩
    · refine .inl ⟨scan', hend, fun row hrow => ?_⟩
      obtain ⟨state, share, hshare, hin⟩ := hrow.nonempty
      rw [entryCount, sum_eq_zero_iff] at hzero
      have hnil := eq_nil_of_length_eq_zero (hzero _ (mem_map_of_mem hshare))
      simp [hnil] at hin
    · rw [hstep, yieldOr, hpast.snapshot]
      have hdecide : ∀ row, scan.HasRow shares tombstones row → row.1 = key →
          w.resolve scan.snapshot.readTimeMillis = some row.2 := by
        rintro ⟨k, value⟩ hrow rfl
        exact hrow.resolve (h.mergeable.agree k) hbest hcover
      cases hresolve : w.resolve scan.snapshot.readTimeMillis with
      | some value =>
        refine .inr ⟨(key, value), scan₁, shares₁, rfl, hpast, ⟨w, hbest, hcover, hresolve⟩,
          fun row hrow => ?_⟩
        rcases hfirst row.1 hrow.nonempty with hkey | hkey
        · left
          have := hdecide row hrow hkey
          rw [hresolve, Option.some.injEq] at this
          exact Prod.ext hkey this.symm
        · exact .inr hkey
      | none =>
        -- The key has no row: those of the scan are those of what is left of it.
        have hnone : ∀ row, scan.HasRow shares tombstones row →
            scan₁.HasRow shares₁ tombstones row := by
          intro row hrow
          rcases hfirst row.1 hrow.nonempty with hkey | hkey
          · have := hdecide row hrow hkey
            rw [hresolve] at this
            cases this
          · exact (hpast.hasRow_iff row).2 ⟨hrow, hkey⟩
        have hcount := hpast.count
        rcases ih hpast.running (by omega) with ⟨scan', hend, hno⟩ |
          ⟨row, scan', shares', hnext, hpast', hrow, hrows⟩
        · exact .inl ⟨scan', hend, fun row hrow => hno row (hnone row hrow)⟩
        · rw [hpast.range] at hrows
          obtain ⟨hrow', hahead⟩ := (hpast.hasRow_iff row).1 hrow
          exact .inr ⟨row, scan', shares', hnext, hpast.trans hpast' hahead, hrow',
            fun row' h' => hrows row' (hnone row' h')⟩

/-- The entries still to come are enough fuel. -/
theorem Running.entryCount_le (h : scan.Running shares tombstones) :
    entryCount shares ≤ scan.remaining := by
  rw [entryCount, remaining]
  have hfeeds := h.feeds
  clear h
  generalize scan.sources = sources at hfeeds ⊢
  induction hfeeds with
  | nil => exact le_rfl
  | cons hfeed _ ih =>
    rw [map_cons, map_cons, sum_cons, sum_cons]
    exact Nat.add_le_add hfeed.length_le ih

theorem next_of_row {row : Key × Value} {scan' : SnapshotScan} (hactive : scan.lifecycle = .active)
    (h : scan.nextVisible = .ok (some row, scan')) : scan.next = (some (.ok row), scan') := by
  simp only [next, hactive, h]

theorem next_of_end {scan' : SnapshotScan} (hactive : scan.lifecycle = .active)
    (h : scan.nextVisible = .ok (none, scan')) :
    scan.next = (none, { scan' with lifecycle := .exhausted }) := by
  simp only [next, hactive, h]

/-- A scan whose sources have been opened yields the rows of what they have to tell,
    in order, and then ends. -/
theorem Running.drains {start : SnapshotScan} (hactive : start.lifecycle = .active)
    (hopen : start.initializeSources = .ok scan) (h : scan.Running shares tombstones) :
    ∃ rows, start.Drains rows ∧
      rows.Pairwise (fun row row' => Ahead scan.range.reverse row.1 row'.1) ∧
      ∀ row, row ∈ rows ↔ scan.HasRow shares tombstones row := by
  induction hn : entryCount shares using Nat.strong_induction_on
    generalizing start scan shares with
  | _ n ih =>
    have hvisible : start.nextVisible = nextVisibleFrom (scan.remaining + 1) scan := by
      rw [nextVisible, hopen]
      rfl
    rcases h.nextVisibleFrom_spec (Nat.lt_succ_of_le h.entryCount_le) with ⟨scan', hend, hno⟩ |
      ⟨row, scan', shares', hrow, hpast, hat, hrows⟩
    · refine ⟨[], .done (next_of_end hactive (hvisible.trans hend)) rfl, .nil, fun row => ?_⟩
      exact ⟨fun h => absurd h not_mem_nil, fun h => absurd h (hno row)⟩
    · have hrun := hpast.running
      obtain ⟨rows, hdrains, hsorted, hmem⟩ := ih _ (hn ▸ hpast.count) hrun.active
        (by rw [initializeSources, if_pos hrun.initialized]) hrun rfl
      rw [hpast.range] at hsorted
      have hmem' := fun row' => (hmem row').trans (hpast.hasRow_iff row')
      refine ⟨row :: rows, .row (next_of_row hactive (hvisible.trans hrow)) hdrains,
        pairwise_cons.2 ⟨fun row' h' => ((hmem' row').1 h').2, hsorted⟩, fun row' => ?_⟩
      rw [mem_cons, hmem']
      constructor
      · rintro (rfl | h')
        exacts [hat, h'.1]
      · intro h'
        exact (hrows row' h').imp_right fun hahead => ⟨h', hahead⟩

end SnapshotScan

end Midge
