import Midge.Compaction.LayoutTiling
import Mathlib.Combinatorics.SimpleGraph.Connectivity.Connected

/-!
# Repair components are connected components

Two files of a level are joined if they overlap in more than a shared endpoint, or if a third file
covers a point that both of them cover (`repairGraph`). The sweep connects a file to a few of the
active ones only: to one that reaches furthest, to those that end at its start and to those that
end where it does. The others have been connected to these before, so that the files of the same
root are always the connected ones (`SweepTracks`), and `repairComponents` returns the connected
components with at least two files (`repairComponents_connected`).
-/

namespace Midge

open Intervals UnionFind List SortedMap GrandparentOverlap

/-! ## Joined files -/

/-- The files overlap in more than a shared endpoint, or a third one covers a point with them. -/
def JoinedBy (P : List RepairInterval) (a b : ℕ) : Prop :=
  ∃ i ∈ P, ∃ j ∈ P, i.index = a ∧ j.index = b ∧ i ≠ j ∧
    (¬ Apart i.bounds j.bounds ∨ ∃ k ∈ P, k ≠ i ∧ k ≠ j ∧
      ∃ x, Contains i.bounds x ∧ Contains j.bounds x ∧ Contains k.bounds x)

variable {a b : ℕ} {P : List RepairInterval}

theorem JoinedBy.mono {Q : List RepairInterval} (hsub : P ⊆ Q) (h : JoinedBy P a b) :
    JoinedBy Q a b := by
  obtain ⟨i, hi, j, hj, ha, hb, hne, hjoin⟩ := h
  refine ⟨i, hsub hi, j, hsub hj, ha, hb, hne, hjoin.imp_right ?_⟩
  rintro ⟨k, hk, h⟩
  exact ⟨k, hsub hk, h⟩

/-! ## What the sweep connects -/

theorem mem_endpointEdges {active : ActiveEndpoints} {stop : Key} (h : Sorted active) {group : EndpointGroup}
    (hmem : (stop, group) ∈ active) (hcount : ¬ group.count + 1 ≤ 2) {r : ℕ}
    (hr : r ∈ group.representatives) : r ∈ endpointEdges active stop := by
  rwa [endpointEdges_eq, get?_of_mem h hmem, Option.elim_some, if_neg hcount]

/-! ## The sweep -/

/-- The groups of the active files: their counts are exact, and every file of a group is connected
    to one of its representatives. -/
structure GroupsTrack (P : List RepairInterval) (active : ActiveEndpoints) : Prop where
  count : ∀ e ∈ active, e.2.count = P.countP fun j => decide (j.stop = e.1)
  member : ∀ e ∈ active, ∀ r ∈ e.2.representatives, ∃ j ∈ P, j.index = r ∧ j.stop = e.1
  covered : ∀ e ∈ active, ∀ j ∈ P, j.stop = e.1 →
    ∃ r ∈ e.2.representatives, Relation.EqvGen (JoinedBy P) j.index r

/-- The files of the same root are the connected ones. -/
structure SweepTracks (n : ℕ) (P : List RepairInterval) (s : RepairSweep) : Prop where
  exact : SweepExact P s
  nodup : P.Nodup
  ordered : ∀ j ∈ P, j.start ≤ j.stop
  parents : Tracks n s.parents (JoinedBy P)
  groups : GroupsTrack P s.active

/-- There is another file with the property. -/
theorem exists_ne_of_two_le_countP (hnodup : P.Nodup) {p : RepairInterval → Bool}
    (hcount : 2 ≤ P.countP p) (j : RepairInterval) : ∃ k ∈ P, k ≠ j ∧ p k = true := by
  by_contra hnone
  push Not at hnone
  have hsub : P.filter p ⊆ [j] := by
    intro k hk
    obtain ⟨hmem, hp⟩ := mem_filter.1 hk
    by_contra hne
    exact hnone k hmem (fun h => hne (mem_singleton.2 h)) hp
  have hle := ((hnodup.filter p).subperm hsub).length_le
  rw [countP_eq_length_filter] at hcount
  simp at hle
  omega

variable {j : RepairInterval}

section Step

variable {n : ℕ} {P : List RepairInterval} {i : RepairInterval} {active : ActiveEndpoints}

/-- What is known of the active files when the next one is swept. -/
structure NextActive (n : ℕ) (P : List RepairInterval) (i : RepairInterval)
    (active : ActiveEndpoints) : Prop where
  next : NextFile n P i
  nodup : P.Nodup
  ordered : ∀ j ∈ P, j.start ≤ j.stop
  sorted : (active.map Prod.fst).Pairwise (· < ·)
  nonempty : ∀ e ∈ active, e.2.representatives ≠ []
  reach : ∀ j ∈ P, i.start ≤ j.stop → j.stop ∈ active.map Prod.fst
  bounds : ∀ e ∈ active, i.start ≤ e.1
  groups : GroupsTrack P active

/-- The number of the files that cover the start of the next one. -/
def coverCount (P : List RepairInterval) (i : RepairInterval) : ℕ :=
  P.countP fun j => decide (i.start ≤ j.stop)

/-- The files that the next one is connected to. -/
def newEdges (P : List RepairInterval) (active : ActiveEndpoints) (i : RepairInterval) : List ℕ :=
  furthestEdges active i ++ boundaryEdges active (coverCount P i) i ++ endpointEdges active i.stop

/-- The relation after the next file has been connected. -/
def Extended (P : List RepairInterval) (active : ActiveEndpoints) (i : RepairInterval) (a b : ℕ) :
    Prop := JoinedBy P a b ∨ a = i.index ∧ b ∈ newEdges P active i

namespace NextActive

section

variable (h : NextActive n P i active)

include h

/-- A file that reaches beyond the start of the next one overlaps it. -/
theorem not_apart (hj : j ∈ P) (hlt : i.start < j.stop) :
    ¬ Apart i.bounds j.bounds := by
  rintro (hle | hle)
  · change i.stop ≤ j.start at hle
    rcases h.next.order j hj with hstart | ⟨heq, hstop⟩
    · exact absurd (h.next.ordered.trans hle) (not_le.2 hstart)
    · exact absurd (hstop.trans (hle.trans heq.le)) (not_le.2 hlt)
  · exact absurd hle (not_le.2 hlt)

theorem ne (hj : j ∈ P) : i ≠ j := by
  rintro rfl
  exact h.next.fresh i hj rfl

/-- The next file and an active one, joined by what they share with a third one. -/
theorem joined_of_common {k : RepairInterval} (hj : j ∈ P) (hk : k ∈ P) (hne : k ≠ j) {x : Key}
    (hi : Contains i.bounds x) (hjx : x ≤ j.stop) (hkx : x ≤ k.stop) :
    JoinedBy (P ++ [i]) i.index j.index := by
  have hstart : ∀ {l : RepairInterval}, l ∈ P → l.start ≤ x := fun hl =>
    (h.next.after _ hl).trans hi.1
  exact ⟨i, by simp, j, mem_append_left _ hj, rfl, rfl, h.ne hj, .inr
    ⟨k, mem_append_left _ hk, (h.ne hk).symm, hne, x, hi, ⟨hstart hj, hjx⟩, hstart hk, hkx⟩⟩

/-- Every connection is between joined files. -/
theorem joined_of_mem_newEdges {r : ℕ} (hr : r ∈ newEdges P active i) :
    JoinedBy (P ++ [i]) i.index r := by
  obtain ⟨e, he, hr, hcase⟩ := of_mem_edges h.nonempty hr
  obtain ⟨j, hj, rfl, hstop⟩ := h.groups.member e he r hr
  rcases hcase with hlt | ⟨hcount, hbound⟩ | ⟨hcount, hbound⟩
  · exact ⟨i, by simp, j, mem_append_left _ hj, rfl, rfl, h.ne hj,
      .inl (h.not_apart hj (hstop ▸ hlt))⟩
  · -- The start is covered by a third file.
    obtain ⟨k, hk, hne, hreach⟩ := exists_ne_of_two_le_countP h.nodup hcount j
    exact h.joined_of_common hj hk hne ⟨le_rfl, h.next.ordered⟩ (hstop.trans hbound).ge
      (of_decide_eq_true hreach)
  · -- The end is covered by a third file.
    rw [h.groups.count e he] at hcount
    obtain ⟨k, hk, hne, hreach⟩ := exists_ne_of_two_le_countP h.nodup hcount j
    exact h.joined_of_common hj hk hne ⟨h.next.ordered, le_rfl⟩ (hstop.trans hbound).ge
      ((of_decide_eq_true hreach).trans hbound).ge

end

theorem edge (r : ℕ) (hr : r ∈ newEdges P active i) :
    Relation.EqvGen (Extended P active i) i.index r := .rel _ _ (.inr ⟨rfl, hr⟩)

theorem old (h : Relation.EqvGen (JoinedBy P) a b) :
    Relation.EqvGen (Extended P active i) a b := h.mono fun _ _ => .inl

/-- A file that reaches beyond the start is connected to the next one. -/
theorem linked_of_lt (h : NextActive n P i active) (hj : j ∈ P) (hlt : i.start < j.stop) :
    Relation.EqvGen (Extended P active i) i.index j.index := by
  have hreach := h.reach j hj hlt.le
  cases hlast : active.getLast? with
  | none => simp [getLast?_eq_none_iff.1 hlast] at hreach
  | some e =>
    have hmem := mem_of_getLast? hlast
    have hle : j.stop ≤ e.1 := le_getLast h.sorted hlast hreach
    obtain ⟨r, reps, hreps⟩ := exists_cons_of_ne_nil (h.nonempty e hmem)
    obtain ⟨k, hk, rfl, hstop⟩ := h.groups.member e hmem r (by simp [hreps])
    have hedge : k.index ∈ newEdges P active i := by
      simp [newEdges, furthestEdges, hlast, hlt.trans_le hle, hreps]
    refine .trans _ _ _ (edge _ hedge) ?_
    by_cases heq : k = j
    · exact heq ▸ .refl _
    · -- Both cover the start, and more.
      refine .rel _ _ (.inl ⟨k, hk, j, hj, rfl, rfl, heq, .inl ?_⟩)
      have hklt : i.start < k.stop := hstop.symm ▸ hlt.trans_le hle
      rintro (hle' | hle')
      · exact absurd (hle'.trans (h.next.after j hj)) (not_le.2 hklt)
      · exact absurd (hle'.trans (h.next.after k hk)) (not_le.2 hlt)

/-- A file that covers the start with another one is connected to the next one. -/
theorem linked_of_le (h : NextActive n P i active) (hj : j ∈ P) (hle : i.start ≤ j.stop)
    (hcount : 2 ≤ coverCount P i) : Relation.EqvGen (Extended P active i) i.index j.index := by
  rcases hle.lt_or_eq with hlt | heq
  · exact h.linked_of_lt hj hlt
  · obtain ⟨e, he, hbound⟩ := mem_map.1 (h.reach j hj hle)
    obtain ⟨e', hfind⟩ : ∃ e', active.find? (fun entry => decide (entry.1 = i.start)) =
        some e' := Option.isSome_iff_exists.1
      (find?_isSome.2 ⟨e, he, by simpa using hbound.trans heq.symm⟩)
    have hfound := find?_some hfind
    have hbound' : e'.1 = i.start := of_decide_eq_true hfound
    obtain ⟨r, hr, hjr⟩ := h.groups.covered e' (mem_of_find?_eq_some hfind) j hj
      (heq.symm.trans hbound'.symm)
    have hedge : r ∈ newEdges P active i := by
      simp [newEdges, boundaryEdges, hcount, hfind, hr]
    exact .trans _ _ _ (edge _ hedge) (.symm _ _ (old hjr))

/-- Two files that cover a point of the next one with it. -/
theorem two_le_coverCount {k : RepairInterval} (hj : j ∈ P) (hk : k ∈ P) (hne : k ≠ j)
    (hjx : i.start ≤ j.stop) (hkx : i.start ≤ k.stop) : 2 ≤ coverCount P i := by
  have hsub : [j, k] ⊆ P.filter fun j => decide (i.start ≤ j.stop) := by
    simp [hj, hk, hjx, hkx]
  have hnodup : [j, k].Nodup := by simp [hne.symm]
  rw [coverCount, countP_eq_length_filter]
  exact (hnodup.subperm hsub).length_le

/-- All joined files are connected. -/
theorem linked_of_joined (h : NextActive n P i active) (hab : JoinedBy (P ++ [i]) a b) :
    Relation.EqvGen (Extended P active i) a b := by
  have hcases : ∀ {j : RepairInterval}, j ∈ P ++ [i] → j ∈ P ∨ j = i := fun hj => by
    simpa using hj
  -- One of the files is the next one.
  have hnew : ∀ j ∈ P, (¬ Apart i.bounds j.bounds ∨ ∃ k ∈ P ++ [i], k ≠ i ∧ k ≠ j ∧
      ∃ x, Contains i.bounds x ∧ Contains j.bounds x ∧ Contains k.bounds x) →
      Relation.EqvGen (Extended P active i) i.index j.index := by
    rintro j hj (hapart | ⟨k, hk, hki, hkj, x, hix, hjx, hkx⟩)
    · exact h.linked_of_lt hj (not_le.1 fun hle => hapart (.inr hle))
    · have hk := (hcases hk).resolve_right hki
      have hle := hix.1.trans hjx.2
      exact h.linked_of_le hj hle (two_le_coverCount hj hk hkj hle (hix.1.trans hkx.2))
  obtain ⟨j, hj, k, hk, rfl, rfl, hne, hjoin⟩ := hab
  by_cases hji : j = i
  · subst hji
    exact hnew k ((hcases hk).resolve_right hne.symm) hjoin
  replace hj := (hcases hj).resolve_right hji
  by_cases hki : k = i
  · subst hki
    refine .symm _ _ (hnew j hj (hjoin.imp (fun h h' => h h'.symm) ?_))
    rintro ⟨l, hl, hlj, hlk, x, hjx, hkx, hlx⟩
    exact ⟨l, hl, hlk, hlj, x, hkx, hjx, hlx⟩
  replace hk := (hcases hk).resolve_right hki
  rcases hjoin with hapart | ⟨l, hl, hlj, hlk, x, hjx, hkx, hlx⟩
  · exact .rel _ _ (.inl ⟨j, hj, k, hk, rfl, rfl, hne, .inl hapart⟩)
  by_cases hli : l = i
  · -- The next file makes them three.
    subst hli
    have hleft := hlx.1.trans hjx.2
    have hright := hlx.1.trans hkx.2
    have hcount := two_le_coverCount hj hk hne.symm hleft hright
    exact .trans _ _ _ (.symm _ _ (h.linked_of_le hj hleft hcount)) (h.linked_of_le hk hright hcount)
  · replace hl := (hcases hl).resolve_right hli
    exact .rel _ _ (.inl ⟨j, hj, k, hk, rfl, rfl, hne, .inr ⟨l, hl, hlj, hlk, x, hjx, hkx, hlx⟩⟩)

/-- The groups after the next file has been added. -/
theorem groupsTrack (h : NextActive n P i active) :
    GroupsTrack (P ++ [i]) (alter i.stop (joinGroup i.index) active) := by
  have hmono : ∀ {a b}, Relation.EqvGen (JoinedBy P) a b →
      Relation.EqvGen (JoinedBy (P ++ [i])) a b := fun h =>
    h.mono fun _ _ => JoinedBy.mono (subset_append_left ..)
  have hcount : ∀ b, (P ++ [i]).countP (fun j => decide (j.stop = b)) =
      P.countP (fun j => decide (j.stop = b)) + if i.stop = b then 1 else 0 := fun b => by
    simp [countP_append, countP_cons]
  -- Without a group, no file ends where the next one does.
  have hnone : get? i.stop active = none → ∀ j ∈ P, j.stop ≠ i.stop := by
    intro hget j hj hstop
    obtain ⟨e, he, heq⟩ := mem_map.1 (h.reach j hj (h.next.ordered.trans hstop.ge))
    exact get?_eq_none.1 hget e he (heq.trans hstop)
  have hmem := fun e => @mem_alter _ _ _ i.stop (joinGroup i.index) active e h.sorted
  refine ⟨fun e he => ?_, fun e he r hr => ?_, fun e he j hj hstop => ?_⟩
  · rw [hcount]
    rcases (hmem e).1 he with ⟨he, hne⟩ | rfl
    · rw [h.groups.count e he, if_neg (Ne.symm hne), add_zero]
    · rw [count_joinGroup, if_pos rfl]
      cases hget : get? i.stop active with
      | none => simpa using hnone hget
      | some group => exact congrArg (· + 1) (h.groups.count _ (mem_of_get? hget))
  · have hold : ∀ e ∈ active, ∀ r ∈ e.2.representatives,
        ∃ j ∈ P ++ [i], j.index = r ∧ j.stop = e.1 := fun e he r hr => by
      obtain ⟨j, hj, h⟩ := h.groups.member e he r hr
      exact ⟨j, mem_append_left _ hj, h⟩
    rcases (hmem e).1 he with ⟨he, -⟩ | rfl
    · exact hold e he r hr
    · rcases mem_joinGroup hr with rfl | ⟨old, hget, hr⟩
      exacts [⟨i, by simp, rfl, rfl⟩, hold _ (mem_of_get? hget) r hr]
  · have hcases : j ∈ P ∨ j = i := by simpa using hj
    rcases (hmem e).1 he with ⟨he, hne⟩ | rfl
    · have hj := hcases.resolve_right fun hji => hne (hstop.symm.trans (congrArg _ hji))
      obtain ⟨r, hr, hjr⟩ := h.groups.covered e he j hj hstop
      exact ⟨r, hr, hmono hjr⟩
    · have hself := self_mem_joinGroup i.index (get? i.stop active)
      rcases hcases with hj | rfl
      · cases hget : get? i.stop active with
        | none => exact absurd hstop (hnone hget j hj)
        | some group =>
          have hgroup := mem_of_get? hget
          obtain ⟨r, hr, hjr⟩ := h.groups.covered _ hgroup j hj hstop
          rw [hget] at hself
          by_cases hcount : group.count + 1 ≤ 2
          · refine ⟨r, ?_, hmono hjr⟩
            rw [joinGroup, if_pos hcount]
            exact mem_append_left _ hr
          · -- The representatives have been connected to the new file.
            have hedge : r ∈ newEdges P active i :=
              mem_append_right _ (mem_endpointEdges h.sorted hgroup hcount hr)
            exact ⟨i.index, hself, .trans _ _ _ (hmono hjr)
              (.symm _ _ (.rel _ _ (h.joined_of_mem_newEdges hedge)))⟩
      · exact ⟨j.index, hself, .refl _⟩

end NextActive

/-- A file is swept. -/
theorem SweepTracks.sweepFile {s : RepairSweep} (hs : SweepInv n P s) (h : SweepTracks n P s)
    (hnext : NextFile n P i) : SweepTracks n (P ++ [i]) (sweepFile s i) := by
  have hsub : ∀ e ∈ s.activeAt i, e ∈ s.active := fun e he => (dropWhile_sublist _).mem he
  have hactive : NextActive n P i (s.activeAt i) :=
    { next := hnext
      nodup := h.nodup
      ordered := h.ordered
      sorted := (hs.activeAt i).sorted
      nonempty := (hs.activeAt i).nonempty
      reach := fun j => hs.mem_activeAt hnext
      bounds := fun e => hs.start_le
      groups := ⟨fun e he => h.groups.count e (hsub e he), fun e he => h.groups.member e (hsub e he),
        fun e he => h.groups.covered e (hsub e he)⟩ }
  refine ⟨h.exact.sweepFile hs hnext, ?_, ?_, ?_, ?_⟩
  · refine nodup_append.2 ⟨h.nodup, by simp, fun j hj k hk => ?_⟩
    rw [mem_singleton.1 hk]
    exact (hactive.ne hj).symm
  · intro j hj
    rcases mem_append.1 hj with hj | hj
    · exact h.ordered j hj
    · exact mem_singleton.1 hj ▸ hnext.ordered
  · have hedges : ∀ r ∈ s.edges i, r < n := fun r hr => by
      obtain ⟨j, hj, rfl⟩ := swept_of_mem_edges (hs.activeAt i) hr
      exact hnext.indices j hj
    have hnew : newEdges P (s.activeAt i) i = s.edges i := by
      rw [newEdges, RepairSweep.edges, h.exact.countAt hs hnext, coverCount]
    rw [sweepFile_parents hactive.sorted]
    refine (h.parents.foldl_connect hnext.index hedges).congr (fun a b hab => ?_) fun a b hab => ?_
    · rcases hab with hab | ⟨rfl, hb⟩
      · exact .rel _ _ (hab.mono (subset_append_left ..))
      · exact .rel _ _ (hactive.joined_of_mem_newEdges (hnew ▸ hb))
    · exact hnew ▸ hactive.linked_of_joined hab
  · rw [sweepFile_active hactive.sorted]
    exact hactive.groupsTrack

end Step

/-! ## Groups -/

/-- A group has the indices of its root, after those it had before. -/
theorem mem_groupByRoot {parents : List ℕ} {rep rank : ℕ → ℕ} (h : Represents parents rep rank)
    {order : List RepairInterval} {groups : List (ℕ × List ℕ)}
    (hsorted : (groups.map Prod.fst).Pairwise (· < ·)) {g : ℕ × List ℕ}
    (hg : g ∈ groupByRoot parents order groups) :
    ∃ old, ((g.1, old) ∈ groups ∨ g.1 ∉ groups.map Prod.fst ∧ old = []) ∧
      g.2 = old ++ (order.filter fun i => decide (rep i.index = g.1)).map RepairInterval.index := by
  induction order generalizing parents groups with
  | nil => exact ⟨g.2, .inl hg, by simp⟩
  | cons i order ih =>
    obtain ⟨hr, -, h'⟩ := h.root i.index
    simp only [groupByRoot, hr] at hg
    obtain ⟨old, hold, hg₂⟩ := ih h' (sorted_insertGroup hsorted) hg
    rw [insertGroup_eq, mem_alter hsorted, mem_keys_alter hsorted] at hold
    rw [hg₂]
    rcases hold with (⟨hmem, hne⟩ | heq) | ⟨hnot, rfl⟩
    · exact ⟨old, .inl hmem, by rw [filter_cons_of_neg (by simpa using Ne.symm hne)]⟩
    · obtain ⟨hkey, rfl⟩ := Prod.mk.inj heq
      rw [filter_cons_of_pos (by simpa using hkey.symm), ← hkey]
      refine ⟨(get? g.1 groups).getD [], ?_, by simp⟩
      cases hget : get? g.1 groups with
      | none =>
        refine .inr ⟨fun hmem => ?_, rfl⟩
        obtain ⟨e, he, heq⟩ := mem_map.1 hmem
        exact get?_eq_none.1 hget e he heq
      | some group => exact .inl (mem_of_get? hget)
    · rw [not_or] at hnot
      exact ⟨[], .inr ⟨hnot.2, rfl⟩,
        by rw [filter_cons_of_neg (by simpa using Ne.symm hnot.1)]⟩

/-! ## Connected components -/

/-- Two files are joined if they overlap in more than a shared endpoint, or if both belong to
    three files that cover a common point. -/
def repairGraph (files : List FileMeta) : SimpleGraph (Fin files.length) where
  Adj a b := a ≠ b ∧ ∃ i j, completeBounds files[a] = some i ∧
    completeBounds files[b] = some j ∧
    (¬ Apart i j ∨ ∃ c, c ≠ a ∧ c ≠ b ∧ ∃ k, completeBounds files[c] = some k ∧
      ∃ x, Contains i x ∧ Contains j x ∧ Contains k x)
  symm := ⟨by
    rintro a b ⟨hne, i, j, hi, hj, hjoin⟩
    refine ⟨hne.symm, j, i, hj, hi, hjoin.imp (fun h h' => h h'.symm) ?_⟩
    rintro ⟨c, hca, hcb, k, hk, x, hix, hjx, hkx⟩
    exact ⟨c, hcb, hca, k, hk, x, hjx, hix, hkx⟩⟩
  loopless := ⟨fun a h => h.1 rfl⟩

variable {files : List FileMeta}

variable {i : RepairInterval}

/-- The swept files are the files with complete bounds, by their indices. -/
theorem eq_of_mem_repairOrder (hi : i ∈ repairOrder files) (hj : j ∈ repairOrder files)
    (hindex : i.index = j.index) : i = j :=
  inj_on_of_nodup_map (nodup_index_repairOrder files) hi hj hindex

theorem exists_mem_repairOrder {a : Fin files.length} {i : Key × Key}
    (hi : completeBounds files[a] = some i) :
    ∃ r ∈ repairOrder files, r.index = a ∧ r.bounds = i :=
  ⟨⟨a, files[a].name, i.1, i.2⟩, mem_repairOrder.2 ⟨files[a], by simp, rfl, hi⟩, rfl, rfl⟩

theorem completeBounds_of_mem_repairOrder (hi : i ∈ repairOrder files) :
    ∃ a : Fin files.length, i.index = a ∧
      completeBounds files[a] = some i.bounds := by
  obtain ⟨file, hget, -, hbounds⟩ := mem_repairOrder.1 hi
  obtain ⟨hlt, rfl⟩ := List.getElem?_eq_some_iff.1 hget
  exact ⟨⟨i.index, hlt⟩, rfl, hbounds⟩

/-- The graph joins what the sweep is to connect. -/
theorem joinedBy_iff : JoinedBy (repairOrder files) a b ↔
    ∃ c d : Fin files.length, (c : ℕ) = a ∧ (d : ℕ) = b ∧ (repairGraph files).Adj c d := by
  constructor
  · rintro ⟨i, hi, j, hj, rfl, rfl, hne, hjoin⟩
    obtain ⟨c, hc, hic⟩ := completeBounds_of_mem_repairOrder hi
    obtain ⟨d, hd, hjd⟩ := completeBounds_of_mem_repairOrder hj
    refine ⟨c, d, hc.symm, hd.symm, fun heq => ?_, _, _, hic, hjd, hjoin.imp_right ?_⟩
    · exact hne (eq_of_mem_repairOrder hi hj (by rw [hc, hd, heq]))
    · rintro ⟨k, hk, hki, hkj, h⟩
      obtain ⟨e, he, hke⟩ := completeBounds_of_mem_repairOrder hk
      refine ⟨e, fun heq => ?_, fun heq => ?_, _, hke, h⟩
      · exact hki (eq_of_mem_repairOrder hk hi (by rw [he, hc, heq]))
      · exact hkj (eq_of_mem_repairOrder hk hj (by rw [he, hd, heq]))
  · rintro ⟨c, d, rfl, rfl, hne, i, j, hi, hj, hjoin⟩
    obtain ⟨r, hr, hrc, rfl⟩ := exists_mem_repairOrder hi
    obtain ⟨t, ht, htd, rfl⟩ := exists_mem_repairOrder hj
    refine ⟨r, hr, t, ht, hrc, htd, fun heq => ?_, hjoin.imp_right ?_⟩
    · exact hne (Fin.ext (by rw [← hrc, ← htd, heq]))
    · rintro ⟨e, hec, hed, k, hk, h⟩
      obtain ⟨u, hu, hue, rfl⟩ := exists_mem_repairOrder hk
      refine ⟨u, hu, fun heq => ?_, fun heq => ?_, h⟩
      · exact hec (Fin.ext (by rw [← hue, ← hrc, heq]))
      · exact hed (Fin.ext (by rw [← hue, ← htd, heq]))

/-- Connected indices are reachable from each other. -/
theorem reachable_of_eqvGen (h : Relation.EqvGen (JoinedBy (repairOrder files)) a b) :
    a = b ∨ ∃ c d : Fin files.length, (c : ℕ) = a ∧ (d : ℕ) = b ∧
      (repairGraph files).Reachable c d := by
  induction h with
  | rel a b h =>
    obtain ⟨c, d, hc, hd, hadj⟩ := joinedBy_iff.1 h
    exact .inr ⟨c, d, hc, hd, hadj.reachable⟩
  | refl a => exact .inl rfl
  | symm a b _ ih =>
    rcases ih with rfl | ⟨c, d, hc, hd, hreach⟩
    · exact .inl rfl
    · exact .inr ⟨d, c, hd, hc, hreach.symm⟩
  | trans a b e _ _ ih₁ ih₂ =>
    rcases ih₁ with rfl | ⟨c, d, hc, hd, hreach⟩
    · exact ih₂
    · rcases ih₂ with rfl | ⟨c', d', hc', hd', hreach'⟩
      · exact .inr ⟨c, d, hc, hd, hreach⟩
      · obtain rfl : d = c' := Fin.ext (hd.trans hc'.symm)
        exact .inr ⟨c, d', hc, hd', hreach.trans hreach'⟩

theorem eqvGen_iff_reachable {a b : Fin files.length} :
    Relation.EqvGen (JoinedBy (repairOrder files)) a b ↔ (repairGraph files).Reachable a b := by
  constructor
  · intro h
    rcases reachable_of_eqvGen h with heq | ⟨c, d, hc, hd, hreach⟩
    · exact Fin.ext heq ▸ .refl _
    · obtain rfl : c = a := Fin.ext hc
      obtain rfl : d = b := Fin.ext hd
      exact hreach
  · intro h
    rw [SimpleGraph.reachable_iff_reflTransGen] at h
    induction h with
    | refl => exact .refl _
    | tail _ hadj ih => exact .trans _ _ _ ih (.rel _ _ (joinedBy_iff.2 ⟨_, _, rfl, rfl, hadj⟩))

/-- A file that is connected to another one has complete bounds. -/
theorem mem_repairOrder_of_reachable {a b : Fin files.length} (hne : a ≠ b)
    (h : (repairGraph files).Reachable a b) : ∃ i ∈ repairOrder files, i.index = a := by
  rw [SimpleGraph.reachable_iff_reflTransGen] at h
  rcases h.cases_head with heq | ⟨c, ⟨-, i, j, hi, -⟩, -⟩
  · exact absurd heq hne
  · obtain ⟨r, hr, hindex, -⟩ := exists_mem_repairOrder hi
    exact ⟨r, hr, hindex⟩

/-- The list has the files of a connected component, each once. -/
def ListsComponent (files : List FileMeta) (component : List ℕ)
    (c : (repairGraph files).ConnectedComponent) : Prop :=
  component.Nodup ∧ ∀ a, a ∈ component ↔ ∃ h : a < files.length, ⟨a, h⟩ ∈ c.supp

/-- The files of one root are a connected component. -/
theorem listsComponent_of_root {rep : ℕ → ℕ}
    (hrep : ∀ a b, rep a = rep b ↔ Relation.EqvGen (JoinedBy (repairOrder files)) a b)
    (hi : i ∈ repairOrder files) {a : Fin files.length} (ha : i.index = a) :
    ListsComponent files (((repairOrder files).filter fun j =>
      decide (rep j.index = rep i.index)).map RepairInterval.index)
      ((repairGraph files).connectedComponentMk a) := by
  refine ⟨(nodup_index_repairOrder files).sublist (filter_sublist.map _), fun b => ?_⟩
  simp only [mem_map, mem_filter, decide_eq_true_eq,
    SimpleGraph.ConnectedComponent.mem_supp_iff, SimpleGraph.ConnectedComponent.eq]
  constructor
  · rintro ⟨j, ⟨hj, hroot⟩, rfl⟩
    obtain ⟨b, hb, -⟩ := completeBounds_of_mem_repairOrder hj
    refine ⟨hb ▸ b.2, eqvGen_iff_reachable.1 ?_⟩
    exact ha ▸ (hrep _ _).1 hroot
  · rintro ⟨hb, hreach⟩
    have hroot : rep b = rep i.index := (hrep _ _).2 (ha ▸ eqvGen_iff_reachable.2 hreach)
    by_cases hab : (⟨b, hb⟩ : Fin files.length) = a
    · exact ⟨i, ⟨hi, rfl⟩, ha.trans (congrArg Fin.val hab).symm⟩
    · obtain ⟨j, hj, hjb⟩ := mem_repairOrder_of_reachable hab hreach
      exact ⟨j, ⟨hj, (congrArg rep hjb).trans hroot⟩, hjb⟩

/-- Without a defect no files are joined. -/
theorem not_adj_of_tiling (h : Tiling (keyIntervals files)) (a b : Fin files.length) :
    ¬ (repairGraph files).Adj a b := by
  intro hadj
  have htiling := h.perm (map_bounds_repairOrder_perm files).symm
  have : Std.Symm fun i j : RepairInterval => Apart i.bounds j.bounds := ⟨fun _ _ h => h.symm⟩
  obtain ⟨i, hi, j, hj, -, -, hne, hjoin⟩ := joinedBy_iff.2 ⟨a, b, rfl, rfl, hadj⟩
  rcases hjoin with hapart | ⟨k, hk, hki, hkj, x, hix, hjx, hkx⟩
  · exact hapart ((pairwise_map.1 htiling.apart).forall hi hj hne)
  · have hsub : [i, j, k] ⊆ (repairOrder files).filter fun r => decide (Contains r.bounds x) := by
      simp [hi, hj, hk, hix, hjx, hkx]
    have hnodup : [i, j, k].Nodup := by simp [hne, hki.symm, hkj.symm]
    have hthree := (hnodup.subperm hsub).length_le
    have htwo := htiling.depth_le x
    rw [depth, countP_map, countP_eq_length_filter] at htwo
    exact absurd (hthree.trans htwo) (by simp)

/-- The components are the groups of the sweep with more than one file. -/
theorem repairComponents_perm (hfound : (repairSweep files).found = true) :
    (repairComponents files).Perm
      (((groupByRoot (repairSweep files).parents (repairOrder files) []).map Prod.snd).filter
        fun group => decide (1 < group.length)) := by
  rw [repairSweep] at hfound ⊢
  simp only [repairComponents, hfound, if_true]
  exact perm_insertionSort _ _

theorem mem_repairComponents (hfound : (repairSweep files).found = true) {component : List ℕ} :
    component ∈ repairComponents files ↔
      ∃ g ∈ groupByRoot (repairSweep files).parents (repairOrder files) [], g.2 = component ∧
        1 < component.length := by
  rw [(repairComponents_perm hfound).mem_iff, mem_filter, mem_map]
  simp only [decide_eq_true_eq]
  constructor
  · rintro ⟨⟨g, hg, heq⟩, hlen⟩
    exact ⟨g, hg, heq, hlen⟩
  · rintro ⟨g, hg, heq, hlen⟩
    exact ⟨⟨g, hg, heq⟩, hlen⟩

theorem ListsComponent.nontrivial {component : List ℕ}
    {c : (repairGraph files).ConnectedComponent} (h : ListsComponent files component c)
    (hlen : 1 < component.length) : c.supp.Nontrivial := by
  obtain ⟨hnodup, hmem⟩ := h
  obtain ⟨a, b, ha, hb, hne⟩ : ∃ a b, a ∈ component ∧ b ∈ component ∧ a ≠ b :=
    ⟨component[0], component[1], getElem_mem _, getElem_mem _, fun heq =>
      absurd ((hnodup.getElem_inj_iff).1 heq) (by simp)⟩
  obtain ⟨ha, hac⟩ := (hmem a).1 ha
  obtain ⟨hb, hbc⟩ := (hmem b).1 hb
  exact ⟨_, hac, _, hbc, fun heq => hne (Fin.ext_iff.1 heq)⟩

/-- Two files of a component are reachable from each other. -/
theorem reachable_of_mem_supp {c : (repairGraph files).ConnectedComponent} {a b : Fin files.length}
    (ha : a ∈ c.supp) (hb : b ∈ c.supp) : (repairGraph files).Reachable a b :=
  SimpleGraph.ConnectedComponent.exact
    (((SimpleGraph.ConnectedComponent.mem_supp_iff _ _).1 ha).trans
      ((SimpleGraph.ConnectedComponent.mem_supp_iff _ _).1 hb).symm)

/-- `repairComponents` returns the connected components with at least two files, each file in one
    of them at most. -/
theorem repairComponents_connected (files : List FileMeta) :
    (∀ component ∈ repairComponents files, ∃ c : (repairGraph files).ConnectedComponent,
      c.supp.Nontrivial ∧ ListsComponent files component c) ∧
    (∀ c : (repairGraph files).ConnectedComponent, c.supp.Nontrivial →
      ∃ component ∈ repairComponents files, ListsComponent files component c) ∧
    (repairComponents files).Pairwise List.Disjoint := by
  obtain ⟨-, htracks⟩ := sweep_invariant files (I := SweepTracks files.length)
    ⟨⟨fun y _ => rfl, by simp⟩, .nil, by simp, (Tracks.init _).congr (by simp) (by simp [JoinedBy]),
      by simp, by simp, by simp⟩ fun P i s hnext hs h => h.sweepFile hs hnext
  obtain ⟨-, rep, rank, hrepresents, hrep⟩ := htracks.parents
  by_cases hfound : (repairSweep files).found = true
  · have hgroup : ∀ g ∈ groupByRoot (repairSweep files).parents (repairOrder files) [],
        g.2 = ((repairOrder files).filter fun i => decide (rep i.index = g.1)).map
          RepairInterval.index := fun g hg => by
      obtain ⟨old, hold, hg₂⟩ := mem_groupByRoot hrepresents (by simp) hg
      simpa [show old = [] by simpa using hold] using hg₂
    obtain ⟨hsorted, hall, -⟩ := @of_groupByRoot _ _ _ hrepresents (repairOrder files) [] (by simp)
    refine ⟨fun component hcomponent => ?_, fun c hc => ?_, ?_⟩
    · obtain ⟨g, hg, rfl, hlen⟩ := (mem_repairComponents hfound).1 hcomponent
      obtain ⟨x, hx⟩ := exists_mem_of_length_pos (Nat.zero_lt_of_lt hlen)
      rw [hgroup g hg] at hx hlen ⊢
      obtain ⟨i, hi, rfl⟩ := mem_map.1 hx
      obtain ⟨hi, hroot⟩ := mem_filter.1 hi
      obtain ⟨a, ha, -⟩ := completeBounds_of_mem_repairOrder hi
      have hlists := listsComponent_of_root hrep hi ha
      rw [of_decide_eq_true hroot] at hlists
      exact ⟨_, hlists.nontrivial hlen, hlists⟩
    · obtain ⟨a, ha, b, hb, hne⟩ := hc
      have hreach := reachable_of_mem_supp ha hb
      obtain ⟨i, hi, hia⟩ := mem_repairOrder_of_reachable hne hreach
      obtain ⟨g, hg, hroot, -⟩ := hall i hi
      have hlists := listsComponent_of_root hrep hi hia
      rw [← hroot, ← hgroup g hg, (SimpleGraph.ConnectedComponent.mem_supp_iff _ _).1 ha] at hlists
      refine ⟨g.2, (mem_repairComponents hfound).2 ⟨g, hg, rfl, ?_⟩, hlists⟩
      have hsub : [(a : ℕ), b] ⊆ g.2 := by
        simp only [cons_subset, nil_subset, and_true]
        exact ⟨(hlists.2 a).2 ⟨a.2, ha⟩, (hlists.2 b).2 ⟨b.2, hb⟩⟩
      have hnodup : [(a : ℕ), b].Nodup := by simpa using fun h => hne (Fin.ext h)
      exact (hnodup.subperm hsub).length_le
    · refine ((repairComponents_perm hfound).pairwise_iff fun h => h.symm).2 (.filter _ ?_)
      refine pairwise_map.2 ((pairwise_map.1 hsorted).imp_of_mem ?_)
      intro g g' hg hg' hlt x hx hx'
      rw [hgroup g hg] at hx
      rw [hgroup g' hg'] at hx'
      obtain ⟨i, hi, rfl⟩ := mem_map.1 hx
      obtain ⟨j, hj, hij⟩ := mem_map.1 hx'
      have hi := of_decide_eq_true (mem_filter.1 hi).2
      have hj := of_decide_eq_true (mem_filter.1 hj).2
      exact hlt.ne (hi.symm.trans ((congrArg rep hij).symm.trans hj))
  · have hnil := repairComponents_eq_nil_iff.2 (Bool.not_eq_true _ ▸ hfound)
    have htiling := repairComponents_eq_nil_iff_tiling.1 hnil
    rw [hnil]
    refine ⟨by simp, fun c hc => ?_, .nil⟩
    obtain ⟨a, ha, b, hb, hne⟩ := hc
    have hreach := reachable_of_mem_supp ha hb
    rw [SimpleGraph.reachable_iff_reflTransGen] at hreach
    rcases hreach.cases_head with heq | ⟨d, hadj, -⟩
    · exact absurd heq hne
    · exact absurd hadj (not_adj_of_tiling htiling a d)

end Midge
