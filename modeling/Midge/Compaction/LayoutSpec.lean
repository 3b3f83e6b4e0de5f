import Midge.Compaction.Layout
import Midge.Lib.SortedMap

/-!
# A level without repair components

While the sweep over a level finds nothing, every file ends at or before the
start of the next one. So a level that needs no repair can be read as one
sequence of files (`pairwise_of_repairComponents_eq_nil`).

The other direction of the sweep is that what it finds it also reports: whenever
`found` is set, two different files are connected, and end up in one component.
-/

namespace Midge

open List SortedMap GrandparentOverlap

open UnionFind (root connect Represents Tracks)

/-! ## The active endpoints -/

/-- What is kept of the files swept so far: every representative is one of
    them, and the groups are in the order of their endpoints. -/
structure ActiveInv (P : List RepairInterval) (active : ActiveEndpoints) : Prop where
  sorted : (active.map Prod.fst).Pairwise (· < ·)
  nonempty : ∀ e ∈ active, e.2.representatives ≠ []
  counted : ∀ e ∈ active, 0 < e.2.count
  swept : ∀ e ∈ active, ∀ r ∈ e.2.representatives, ∃ i ∈ P, i.index = r

variable {P : List RepairInterval}

theorem ActiveInv.dropWhile {active : ActiveEndpoints} (h : ActiveInv P active)
    (p : Key × EndpointGroup → Bool) : ActiveInv P (active.dropWhile p) := by
  have hsub := dropWhile_sublist p (l := active)
  exact ⟨h.sorted.sublist (hsub.map _), fun e he => h.nonempty e (hsub.mem he),
    fun e he => h.counted e (hsub.mem he), fun e he => h.swept e (hsub.mem he)⟩

/-- The union-find structure after the files `P`. -/
structure ParentsInv (n : ℕ) (P : List RepairInterval) (parents : List ℕ) (found : Bool)
    (rep : ℕ → ℕ) : Prop where
  length : parents.length = n
  represents : ∃ rank, Represents parents rep rank
  found : found → ∃ i ∈ P, ∃ j ∈ P, i.index ≠ j.index ∧ rep i.index = rep j.index

variable {rep : ℕ → ℕ} {i : RepairInterval}

/-! ## What the sweep connects -/

/-- The file that a new one is connected to as it reaches furthest. -/
def furthestEdges (active : ActiveEndpoints) (i : RepairInterval) : List ℕ :=
  match active.getLast? with
  | some (furthest, group) =>
    if i.start < furthest then [group.representatives.headD i.index] else []
  | none => []

/-- The files that a new one is connected to as they end at its start. -/
def boundaryEdges (active : ActiveEndpoints) (activeCount : ℕ) (i : RepairInterval) : List ℕ :=
  if 2 ≤ activeCount then
    match active.find? fun (bound, _) => bound = i.start with
    | some (_, equal) => equal.representatives
    | none => []
  else []

/-- The files that a new one is connected to as they end where it does. -/
def endpointEdges (active : ActiveEndpoints) (stop : Key) : List ℕ :=
  match active.find? fun (bound, _) => bound = stop with
  | some (_, group) => if group.count + 1 ≤ 2 then [] else group.representatives
  | none => []

/-- The group of an endpoint with one more file. -/
def joinGroup (index : ℕ) : Option EndpointGroup → EndpointGroup
  | some group =>
    if group.count + 1 ≤ 2 then ⟨group.count + 1, group.representatives ++ [index]⟩
    else ⟨group.count + 1, [index]⟩
  | none => ⟨1, [index]⟩

theorem endpointEdges_eq {active : ActiveEndpoints} {stop : Key} :
    endpointEdges active stop = ((get? stop active).elim [] fun group =>
      if group.count + 1 ≤ 2 then [] else group.representatives) := by
  rw [endpointEdges, get?]
  cases active.find? fun e => decide (e.1 = stop) <;> rfl

/-- A file is added to the group of its end, and connected to some of it. -/
theorem insertEndpoint_eq {active : ActiveEndpoints} (h : Sorted active) (parents : List ℕ)
    (index : ℕ) (stop : Key) : insertEndpoint parents index stop active =
      ((endpointEdges active stop).foldl (fun parents r => connect parents index r) parents,
        alter stop (joinGroup index) active) := by
  rw [endpointEdges_eq]
  induction active with
  | nil => rfl
  | cons e active ih =>
    obtain ⟨hfirst, hrest⟩ := sorted_cons.1 h
    rw [insertEndpoint, alter, get?_cons]
    rcases lt_trichotomy stop e.1 with hlt | rfl | hgt
    · simp only [(cmp_eq_lt_iff _ _).2 hlt, if_neg hlt.ne',
        get?_eq_none.2 fun a ha => (hlt.trans (hfirst a ha)).ne']
      rfl
    · simp only [cmp_self_eq_eq, if_true, Option.elim_some, joinGroup]
      split_ifs <;> rfl
    · simp only [(cmp_eq_gt_iff _ _).2 hgt, if_neg hgt.ne, ih hrest]

theorem count_joinGroup (index : ℕ) (group : Option EndpointGroup) :
    (joinGroup index group).count = group.elim 0 EndpointGroup.count + 1 := by
  cases group with
  | none => rfl
  | some group =>
    rw [joinGroup]
    split_ifs <;> rfl

theorem mem_joinGroup {index r : ℕ} {group : Option EndpointGroup}
    (hr : r ∈ (joinGroup index group).representatives) :
    r = index ∨ ∃ old, group = some old ∧ r ∈ old.representatives := by
  cases group with
  | none => exact .inl (mem_singleton.1 hr)
  | some old =>
    rw [joinGroup] at hr
    split_ifs at hr
    · rcases mem_append.1 hr with hr | hr
      exacts [.inr ⟨old, rfl, hr⟩, .inl (mem_singleton.1 hr)]
    · exact .inl (mem_singleton.1 hr)

theorem self_mem_joinGroup (index : ℕ) (group : Option EndpointGroup) :
    index ∈ (joinGroup index group).representatives := by
  cases group with
  | none => exact mem_singleton_self _
  | some group =>
    rw [joinGroup]
    split_ifs <;> simp

section Edges

variable {active : ActiveEndpoints} {parents : List ℕ} {found : Bool} {count : ℕ}

theorem connectFurthest_parents : (connectFurthest active i parents found).1 =
    (furthestEdges active i).foldl (fun parents r => connect parents i.index r) parents := by
  rw [connectFurthest, furthestEdges]
  cases active.getLast? with
  | none => rfl
  | some e =>
    dsimp only
    split_ifs <;> rfl

theorem connectBoundary_parents : (connectBoundary active count i parents found).1 =
    (boundaryEdges active count i).foldl (fun parents r => connect parents i.index r) parents := by
  rw [connectBoundary, boundaryEdges]
  split_ifs with hcount
  · cases active.find? fun (bound, _) => decide (bound = i.start) <;> rfl
  · rfl

theorem le_getLast (hsorted : Sorted active) {e : Key × EndpointGroup}
    (he : active.getLast? = some e) {b : Key} (hb : b ∈ active.map Prod.fst) : b ≤ e.1 := by
  obtain ⟨init, rfl⟩ : ∃ init, active = init ++ [e] :=
    ⟨_, (dropLast_append_getLast? e he).symm⟩
  rw [Sorted, map_append, pairwise_append] at hsorted
  rw [map_append, mem_append] at hb
  rcases hb with hb | hb
  · exact (hsorted.2.2 b hb e.1 (by simp)).le
  · simp at hb
    exact hb.le

/-- The file that reaches furthest, if some active one reaches beyond the start. -/
theorem furthestEdges_ne_nil (hsorted : Sorted active) :
    furthestEdges active i ≠ [] ↔ ∃ e ∈ active, i.start < e.1 := by
  rw [furthestEdges]
  cases hlast : active.getLast? with
  | none => simp [getLast?_eq_none_iff.1 hlast]
  | some e =>
    dsimp only
    split_ifs with hlt
    · simpa using ⟨e.1, ⟨e.2, mem_of_getLast? hlast⟩, hlt⟩
    · refine iff_of_false (not_not.2 rfl) ?_
      rintro ⟨e', he', hlt'⟩
      exact hlt (hlt'.trans_le (le_getLast hsorted hlast (mem_map_of_mem he')))

theorem connectFurthest_found : (connectFurthest active i parents found).2 = true ↔
    found = true ∨ furthestEdges active i ≠ [] := by
  rw [connectFurthest, furthestEdges]
  cases active.getLast? with
  | none => simp
  | some e =>
    dsimp only
    split_ifs <;> simp

theorem connectBoundary_found :
    (connectBoundary active count i parents found).2 = true ↔ found = true ∨ 2 ≤ count := by
  rw [connectBoundary]
  split_ifs with h
  · split <;> simp [h]
  · simp [h]

end Edges

/-! ## The sweep -/

/-- The invariant of the sweep, after the files `P`. -/
structure SweepInv (n : ℕ) (P : List RepairInterval) (s : RepairSweep) : Prop where
  parents : ∃ rep, ParentsInv n P s.parents s.found rep
  active : ActiveInv P s.active
  count : s.activeCount = (s.active.map fun e => e.2.count).sum
  reach : ∀ i ∈ P, (∀ j ∈ P, j.start ≤ i.stop) → i.stop ∈ s.active.map Prod.fst
  clear : s.found = false → P.Pairwise fun i j => i.stop ≤ j.start

/-- The next file of the sweep. -/
structure NextFile (n : ℕ) (P : List RepairInterval) (i : RepairInterval) : Prop where
  index : i.index < n
  indices : ∀ j ∈ P, j.index < n
  fresh : ∀ j ∈ P, j.index ≠ i.index
  order : ∀ j ∈ P, j.start < i.start ∨ (j.start = i.start ∧ j.stop ≤ i.stop)
  ordered : i.start ≤ i.stop

/-- Files are swept in the order of their start. -/
theorem NextFile.after {n : ℕ} (h : NextFile n P i) :
    ∀ j ∈ P, j.start ≤ i.start := fun j hj => (h.order j hj).elim le_of_lt fun h => h.1.le

/-- The active files that reach the start of the next one. -/
def RepairSweep.activeAt (s : RepairSweep) (i : RepairInterval) : ActiveEndpoints :=
  s.active.dropWhile fun (bound, _) => bound < i.start

/-- The number of the files that reach the start of the next one. -/
def RepairSweep.countAt (s : RepairSweep) (i : RepairInterval) : ℕ :=
  s.activeCount - ((s.active.takeWhile fun (bound, _) => bound < i.start).map
    fun (_, group) => group.count).sum

/-- The files that the next one is connected to. -/
def RepairSweep.edges (s : RepairSweep) (i : RepairInterval) : List ℕ :=
  furthestEdges (s.activeAt i) i ++ boundaryEdges (s.activeAt i) (s.countAt i) i ++
    endpointEdges (s.activeAt i) i.stop

section Step

variable {n : ℕ} {P : List RepairInterval} {i : RepairInterval} {parents : List ℕ} {found : Bool}
  {active : ActiveEndpoints} {s : RepairSweep}

theorem sweepFile_parents (h : Sorted (s.activeAt i)) : (sweepFile s i).parents =
    (s.edges i).foldl (fun parents r => connect parents i.index r) s.parents := by
  have hparents : (sweepFile s i).parents = (insertEndpoint (connectBoundary (s.activeAt i)
      (s.countAt i) i (connectFurthest (s.activeAt i) i s.parents s.found).1
      (connectFurthest (s.activeAt i) i s.parents s.found).2).1 i.index i.stop (s.activeAt i)).1 := rfl
  rw [hparents, insertEndpoint_eq h, connectBoundary_parents, connectFurthest_parents,
    ← foldl_append, ← foldl_append, ← append_assoc, RepairSweep.edges]

theorem sweepFile_active (h : Sorted (s.activeAt i)) :
    (sweepFile s i).active = alter i.stop (joinGroup i.index) (s.activeAt i) :=
  congrArg Prod.snd (insertEndpoint_eq h _ i.index i.stop)

theorem sweepFile_found (h : Sorted (s.activeAt i)) : (sweepFile s i).found = true ↔
    (s.found = true ∨ ∃ e ∈ s.activeAt i, i.start < e.1) ∨ 2 ≤ s.countAt i := by
  rw [← furthestEdges_ne_nil h, ← connectFurthest_found]
  exact connectBoundary_found

theorem le_of_mem_dropWhile (hsorted : Sorted active) {start : Key}
    {e : Key × EndpointGroup} (he : e ∈ active.dropWhile fun (bound, _) => bound < start) :
    start ≤ e.1 := by
  induction active with
  | nil => simp at he
  | cons a active ih =>
    obtain ⟨hfirst, hrest⟩ := sorted_cons.1 hsorted
    rw [dropWhile_cons] at he
    split_ifs at he with ha
    · exact ih hrest he
    · have ha : start ≤ a.1 := by simpa using ha
      rcases mem_cons.1 he with rfl | he
      exacts [ha, ha.trans (hfirst e he).le]

theorem mem_dropWhile_of_le {start b : Key} (hb : b ∈ active.map Prod.fst) (hle : start ≤ b) :
    b ∈ (active.dropWhile fun (bound, _) => bound < start).map Prod.fst := by
  obtain ⟨e, he, rfl⟩ := mem_map.1 hb
  rw [← takeWhile_append_dropWhile (p := fun e : Key × EndpointGroup => decide (e.1 < start))
    (l := active), mem_append] at he
  rcases he with he | he
  · have := mem_takeWhile_imp he
    exact absurd hle (by simpa using this)
  · exact mem_map_of_mem he

/-- Connecting the next file to some of those before. -/
theorem ParentsInv.connect (h : ParentsInv n P parents found rep) (hnext : NextFile n P i)
    {edges : List ℕ} (hedges : ∀ r ∈ edges, ∃ j ∈ P, j.index = r) {found' : Bool}
    (hfound : found' = true → found = true ∨ edges ≠ []) : ∃ rep', ParentsInv n (P ++ [i])
      (edges.foldl (fun parents r => UnionFind.connect parents i.index r) parents) found' rep' := by
  obtain ⟨rank, hrep⟩ := h.represents
  have htracks : Tracks n parents fun a b => rep a = rep b :=
    ⟨h.length, rep, rank, hrep, fun a b => (eq_equivalence.comap rep).eqvGen_iff.symm⟩
  obtain ⟨hlength, rep', rank', hrep', hiff⟩ := htracks.foldl_connect hnext.index fun r hr => by
    obtain ⟨j, hj, rfl⟩ := hedges r hr
    exact hnext.indices j hj
  refine ⟨rep', hlength, ⟨rank', hrep'⟩, fun hf => ?_⟩
  rcases hfound hf with hold | hne
  · obtain ⟨a, ha, b, hb, hne, hab⟩ := h.found hold
    exact ⟨a, mem_append_left _ ha, b, mem_append_left _ hb, hne, (hiff _ _).2 (.rel _ _ (.inl hab))⟩
  · obtain ⟨r, hr⟩ := exists_mem_of_ne_nil _ hne
    obtain ⟨j, hj, rfl⟩ := hedges r hr
    exact ⟨i, by simp, j, mem_append_left _ hj, (hnext.fresh j hj).symm,
      (hiff _ _).2 (.rel _ _ (.inr ⟨rfl, hr⟩))⟩

/-- A file is connected to representatives of the active files: of one that reaches beyond its
    start, of those that end at its start, and of those that end where it does. -/
theorem of_mem_edges (hne : ∀ e ∈ active, e.2.representatives ≠ []) {count r : ℕ}
    (hr : r ∈ furthestEdges active i ++ boundaryEdges active count i ++
      endpointEdges active i.stop) :
    ∃ e ∈ active, r ∈ e.2.representatives ∧ (i.start < e.1 ∨ (2 ≤ count ∧ e.1 = i.start) ∨
      (2 ≤ e.2.count ∧ e.1 = i.stop)) := by
  rw [mem_append, mem_append, furthestEdges, boundaryEdges, endpointEdges] at hr
  rcases hr with (hr | hr) | hr
  · split at hr
    next e group hlast =>
      split_ifs at hr with hlt
      · have hmem := mem_of_getLast? hlast
        obtain ⟨r', reps, hreps⟩ := exists_cons_of_ne_nil (hne _ hmem)
        rw [hreps, headD_cons, mem_singleton] at hr
        exact ⟨_, hmem, by rw [hreps, hr]; exact mem_cons_self, .inl hlt⟩
      · cases hr
    next => cases hr
  · split_ifs at hr with htwo
    · split at hr
      next hfind =>
        have hb := find?_some hfind
        exact ⟨_, mem_of_find?_eq_some hfind, hr, .inr (.inl ⟨htwo, of_decide_eq_true hb⟩)⟩
      next => cases hr
    · cases hr
  · split at hr
    next hfind =>
      split_ifs at hr with hcount
      · cases hr
      · have hb := find?_some hfind
        have htwo := Nat.lt_succ_iff.1 (not_le.1 hcount)
        exact ⟨_, mem_of_find?_eq_some hfind, hr, .inr (.inr ⟨htwo, of_decide_eq_true hb⟩)⟩
    next => cases hr

theorem swept_of_mem_edges (h : ActiveInv P (s.activeAt i)) {r : ℕ} (hr : r ∈ s.edges i) :
    ∃ j ∈ P, j.index = r := by
  obtain ⟨e, he, hr, -⟩ := of_mem_edges h.nonempty hr
  exact h.swept e he r hr

theorem sum_dropWhile (active : ActiveEndpoints) (p : Key × EndpointGroup → Bool) :
    (active.map fun e => e.2.count).sum - ((active.takeWhile p).map fun e => e.2.count).sum =
      ((active.dropWhile p).map fun e => e.2.count).sum := by
  have := congrArg (fun l => (l.map fun e : Key × EndpointGroup => e.2.count).sum)
    (takeWhile_append_dropWhile (p := p) (l := active))
  simp only [map_append, sum_append] at this
  omega

namespace SweepInv

section

variable (h : SweepInv n P s)

include h

theorem activeAt (i : RepairInterval) : ActiveInv P (s.activeAt i) :=
  h.active.dropWhile _

theorem start_le {e : Key × EndpointGroup} (he : e ∈ s.activeAt i) :
    i.start ≤ e.1 := le_of_mem_dropWhile h.active.sorted he

theorem countAt (i : RepairInterval) :
    s.countAt i = ((s.activeAt i).map fun e => e.2.count).sum := by
  rw [RepairSweep.countAt, h.count]
  exact sum_dropWhile _ _

/-- The end of a file that reaches the start of the next one is active. -/
theorem mem_activeAt (hnext : NextFile n P i) {j : RepairInterval} (hj : j ∈ P)
    (hle : i.start ≤ j.stop) : j.stop ∈ (s.activeAt i).map Prod.fst :=
  mem_dropWhile_of_le (h.reach j hj fun k hk => (hnext.after k hk).trans hle) hle

/-- What the sweep finds it connects. -/
theorem edges_ne_nil (hfound : (sweepFile s i).found = true) :
    s.found = true ∨ s.edges i ≠ [] := by
  have hfurthest : (∃ e ∈ s.activeAt i, i.start < e.1) → s.edges i ≠ [] := by
    intro hex
    simp [RepairSweep.edges, (furthestEdges_ne_nil (h.activeAt i).sorted).2 hex]
  rcases (sweepFile_found (h.activeAt i).sorted).1 hfound with (hold | hex) | htwo
  · exact .inl hold
  · exact .inr (hfurthest hex)
  · right
    -- Some file is active: it ends at the start, or goes beyond it.
    obtain ⟨e, he⟩ : ∃ e, e ∈ s.activeAt i := by
      refine exists_mem_of_ne_nil _ fun hnil => ?_
      rw [h.countAt, hnil] at htwo
      cases htwo
    rcases (h.start_le he).lt_or_eq with hlt | heq
    · exact hfurthest ⟨e, he, hlt⟩
    · obtain ⟨e', hfind⟩ : ∃ e', (s.activeAt i).find? (fun (bound, _) => decide (bound = i.start)) =
          some e' := Option.isSome_iff_exists.1 (find?_isSome.2 ⟨e, he, by simpa using heq.symm⟩)
      have hreps := (h.activeAt i).nonempty e' (mem_of_find?_eq_some hfind)
      simp [RepairSweep.edges, boundaryEdges, htwo, hfind, hreps]

/-- Adding the next file to the active ones. -/
theorem active_sweepFile : ActiveInv (P ++ [i]) (sweepFile s i).active := by
  have hactive := h.activeAt i
  have hsorted : Sorted (s.activeAt i) := hactive.sorted
  rw [sweepFile_active hsorted]
  refine ⟨hsorted.alter, fun e he => ?_, fun e he => ?_, fun e he r hr => ?_⟩
  all_goals rcases (mem_alter hsorted).1 he with ⟨he, -⟩ | rfl
  · exact hactive.nonempty e he
  · exact ne_nil_of_mem (self_mem_joinGroup i.index _)
  · exact hactive.counted e he
  · simp [count_joinGroup]
  · obtain ⟨j, hj, hr⟩ := hactive.swept e he r hr
    exact ⟨j, mem_append_left _ hj, hr⟩
  · rcases mem_joinGroup hr with rfl | ⟨old, hget, hr⟩
    · exact ⟨i, by simp, rfl⟩
    · obtain ⟨j, hj, hr⟩ := hactive.swept _ (mem_of_get? hget) r hr
      exact ⟨j, mem_append_left _ hj, hr⟩

theorem sweepFile (hnext : NextFile n P i) :
    SweepInv n (P ++ [i]) (sweepFile s i) := by
  obtain ⟨rep, hparents⟩ := h.parents
  have hsorted : Sorted (s.activeAt i) := (h.activeAt i).sorted
  refine ⟨?_, h.active_sweepFile, ?_, fun j hj hstarts => ?_, fun hfound => ?_⟩
  · rw [sweepFile_parents hsorted]
    exact hparents.connect hnext (fun r => swept_of_mem_edges (h.activeAt i)) h.edges_ne_nil
  · change s.countAt i + 1 = _
    rw [sweepFile_active hsorted, h.countAt]
    refine (sum_alter (fun group => ?_) _).symm
    cases group <;> simp [count_joinGroup]
  · rw [sweepFile_active hsorted, mem_keys_alter hsorted]
    rcases mem_append.1 hj with hj | hj
    · exact .inr (mem_dropWhile_of_le (h.reach j hj fun k hk => hstarts k (mem_append_left _ hk))
        (hstarts i (by simp)))
    · exact .inl (congrArg _ (mem_singleton.1 hj))
  · rw [← Bool.not_eq_true, sweepFile_found hsorted, not_or, not_or, Bool.not_eq_true] at hfound
    refine pairwise_append.2 ⟨h.clear hfound.1.1, by simp, fun j hj k hk => ?_⟩
    rw [mem_singleton.1 hk]
    by_contra hlt
    rw [not_le] at hlt
    -- The file would still be active, and reach beyond the start.
    obtain ⟨e, he, heq⟩ := mem_map.1 (h.mem_activeAt hnext hj hlt.le)
    exact hfound.1.2 ⟨e, he, heq ▸ hlt⟩

end

end SweepInv

end Step

/-- The whole sweep, with whatever else a step keeps. -/
theorem SweepInv.foldl {n : ℕ} {I : List RepairInterval → RepairSweep → Prop}
    {order : List RepairInterval} {s : RepairSweep} (h : SweepInv n P s) (hI : I P s)
    (hstep : ∀ P i s, NextFile n P i → SweepInv n P s → I P s → I (P ++ [i]) (Midge.sweepFile s i))
    (hindex : ∀ i ∈ P ++ order, i.index < n)
    (hfresh : ((P ++ order).map RepairInterval.index).Nodup)
    (hstarts : (P ++ order).Pairwise fun i j =>
      i.start < j.start ∨ (i.start = j.start ∧ i.stop ≤ j.stop))
    (hordered : ∀ i ∈ order, i.start ≤ i.stop) :
    SweepInv n (P ++ order) (order.foldl Midge.sweepFile s) ∧
      I (P ++ order) (order.foldl Midge.sweepFile s) := by
  induction order generalizing P s with
  | nil => simpa using ⟨h, hI⟩
  | cons i order ih =>
    have happend : P ++ i :: order = P ++ [i] ++ order := by simp
    have hnext : NextFile n P i := by
      rw [map_append, nodup_append] at hfresh
      rw [pairwise_append] at hstarts
      exact ⟨hindex i (by simp), fun j hj => hindex j (mem_append_left _ hj),
        fun j hj => hfresh.2.2 _ (mem_map_of_mem hj) _ (by simp),
        fun j hj => hstarts.2.2 j hj i (by simp), hordered i (by simp)⟩
    rw [happend] at hindex hfresh hstarts ⊢
    exact ih (h.sweepFile hnext) (hstep P i s hnext h hI) hindex hfresh hstarts
      fun j hj => hordered j (mem_cons_of_mem _ hj)

/-! ## Components -/

theorem insertGroup_eq (r index : ℕ) (groups : List (ℕ × List ℕ)) :
    insertGroup r index groups = alter r (fun group => group.getD [] ++ [index]) groups := by
  induction groups with
  | nil => rfl
  | cons g groups ih =>
    rw [insertGroup, alter, ih]
    rfl

theorem sorted_insertGroup {r index : ℕ} {groups : List (ℕ × List ℕ)} (h : Sorted groups) :
    Sorted (insertGroup r index groups) := insertGroup_eq r index groups ▸ h.alter

/-- Adding an index to its group keeps the members of all the groups. -/
theorem of_insertGroup {r index : ℕ} {groups : List (ℕ × List ℕ)} (hsorted : Sorted groups) :
    (∃ g ∈ insertGroup r index groups, g.1 = r ∧ index ∈ g.2) ∧
      ∀ g ∈ groups, ∃ g' ∈ insertGroup r index groups, g'.1 = g.1 ∧ ∀ a ∈ g.2, a ∈ g'.2 := by
  rw [insertGroup_eq]
  refine ⟨⟨_, (mem_alter hsorted).2 (.inr rfl), rfl, by simp⟩, fun g hg => ?_⟩
  by_cases hkey : g.1 = r
  · refine ⟨_, (mem_alter hsorted).2 (.inr rfl), hkey.symm, fun a ha => ?_⟩
    rw [← hkey, get?_of_mem hsorted hg]
    exact mem_append_left _ ha
  · exact ⟨g, (mem_alter hsorted).2 (.inl ⟨hg, hkey⟩), rfl, fun _ h => h⟩

/-- Every index is in the group of its root. -/
theorem of_groupByRoot {parents : List ℕ} {rep rank : ℕ → ℕ} (h : Represents parents rep rank)
    {order : List RepairInterval} {groups : List (ℕ × List ℕ)}
    (hsorted : (groups.map Prod.fst).Pairwise (· < ·)) :
    ((groupByRoot parents order groups).map Prod.fst).Pairwise (· < ·) ∧
      (∀ i ∈ order, ∃ g ∈ groupByRoot parents order groups, g.1 = rep i.index ∧ i.index ∈ g.2) ∧
      ∀ g ∈ groups, ∃ g' ∈ groupByRoot parents order groups, g'.1 = g.1 ∧ ∀ a ∈ g.2, a ∈ g'.2 := by
  induction order generalizing parents groups with
  | nil => exact ⟨hsorted, by simp, fun g hg => ⟨g, hg, rfl, fun _ h => h⟩⟩
  | cons i order ih =>
    obtain ⟨hr, hlen, h'⟩ := h.root i.index
    obtain ⟨⟨g, hg, hgr, hmem⟩, hkeep⟩ := @of_insertGroup (rep i.index) i.index groups hsorted
    obtain ⟨hs', hall, hkeep'⟩ := ih h' (sorted_insertGroup hsorted)
    simp only [groupByRoot, hr]
    refine ⟨hs', fun j hj => ?_, fun a ha => ?_⟩
    · rcases mem_cons.1 hj with rfl | hj
      · obtain ⟨g', hg', hgr', hmem'⟩ := hkeep' g hg
        exact ⟨g', hg', hgr'.trans hgr, hmem' _ hmem⟩
      · exact hall j hj
    · obtain ⟨g₁, hg₁, hr₁, hmem₁⟩ := hkeep a ha
      obtain ⟨g₂, hg₂, hr₂, hmem₂⟩ := hkeep' g₁ hg₁
      exact ⟨g₂, hg₂, hr₂.trans hr₁, fun b hb => hmem₂ b (hmem₁ b hb)⟩

/-- Connected files form a component. -/
theorem exists_component {parents : List ℕ} {rank : ℕ → ℕ} (h : Represents parents rep rank)
    {order : List RepairInterval} {j : RepairInterval} (hi : i ∈ order) (hj : j ∈ order)
    (hne : i.index ≠ j.index) (hrep : rep i.index = rep j.index) :
    ∃ group ∈ (groupByRoot parents order []).map Prod.snd, 1 < group.length := by
  obtain ⟨hsorted, hall, -⟩ := @of_groupByRoot _ _ _ h order [] (by simp)
  obtain ⟨g, hg, hgr, hmem⟩ := hall i hi
  obtain ⟨g', hg', hgr', hmem'⟩ := hall j hj
  have hnodup : ((groupByRoot parents order []).map Prod.fst).Nodup := hsorted.imp fun h => h.ne
  have hsame : g = g' := inj_on_of_nodup_map hnodup hg hg' (by rw [hgr, hgr', hrep])
  refine ⟨g.2, mem_map_of_mem hg, ?_⟩
  rw [← hsame] at hmem'
  cases hl : g.2 with
  | nil => simp [hl] at hmem
  | cons a group =>
    cases group with
    | nil =>
      rw [hl, mem_singleton] at hmem hmem'
      exact absurd (hmem.trans hmem'.symm) hne
    | cons b group => simp

/-! ## The files of a level -/

variable {files : List FileMeta}

theorem mem_repairOrder :
    i ∈ repairOrder files ↔ ∃ file, files[i.index]? = some file ∧ i.name = file.name ∧
      completeBounds file = some (i.start, i.stop) := by
  rw [repairOrder, mem_insertionSort, mem_filterMap]
  constructor
  · rintro ⟨⟨file, index⟩, hmem, h⟩
    obtain ⟨⟨start, stop⟩, hbounds, rfl⟩ := Option.map_eq_some_iff.1 h
    exact ⟨file, by simpa using mem_zipIdx_iff_getElem?.1 hmem, rfl, hbounds⟩
  · rintro ⟨file, hget, hname, hbounds⟩
    refine ⟨(file, i.index), mem_zipIdx_iff_getElem?.2 (by simpa using hget), ?_⟩
    simp only [hbounds, Option.map_some, ← hname]

theorem le_of_completeBounds {file : FileMeta} {lower upper : Key}
    (h : completeBounds file = some (lower, upper)) :
    file.keyBoundsComplete = true ∧ file.smallestKey = some lower ∧ file.largestKey = some upper ∧
      lower ≤ upper := by
  rw [completeBounds] at h
  split at h
  next a b ha hb =>
    split_ifs at h with hc
    cases h
    exact ⟨hc.1, ha, hb, hc.2⟩
  next => cases h

theorem nodup_index_repairOrder (files : List FileMeta) :
    ((repairOrder files).map RepairInterval.index).Nodup := by
  rw [repairOrder, ((perm_insertionSort _ _).map _).nodup_iff]
  have hsub : ∀ interval : FileMeta × ℕ → Option RepairInterval,
      (∀ e i, interval e = some i → i.index = e.2) → ∀ l : List (FileMeta × ℕ),
      ((l.filterMap interval).map RepairInterval.index).Sublist (l.map Prod.snd) := by
    intro interval hindex l
    induction l with
    | nil => simp
    | cons e l ih =>
      cases hi : interval e with
      | none =>
        rw [filterMap_cons_none hi]
        exact ih.cons _
      | some i =>
        rw [filterMap_cons_some hi, map_cons, map_cons, hindex e i hi]
        exact ih.cons_cons _
  refine (hsub _ ?_ _).nodup (by simpa using nodup_range')
  rintro ⟨file, index⟩ i hi
  obtain ⟨bounds, -, rfl⟩ := Option.map_eq_some_iff.1 hi
  rfl

/-- Files are swept in the order of their start and end. -/
theorem pairwise_order_repairOrder (files : List FileMeta) :
    (repairOrder files).Pairwise fun i j =>
      i.start < j.start ∨ (i.start = j.start ∧ i.stop ≤ j.stop) := by
  have : Std.Total fun l r : RepairInterval => l.order ≤ r.order := ⟨fun a b => le_total _ _⟩
  have : IsTrans RepairInterval fun l r => l.order ≤ r.order := ⟨fun _ _ _ h h' => h.trans h'⟩
  refine (pairwise_insertionSort _ _).imp fun {i j} hij => ?_
  refine (Prod.Lex.le_iff.1 hij).imp_right fun ⟨heq, hle⟩ => ⟨heq, ?_⟩
  rcases Prod.Lex.le_iff.1 hle with hlt | ⟨heq, -⟩
  exacts [hlt.le, heq.le]

/-- The sweep over the files of a level. -/
def repairSweep (files : List FileMeta) : RepairSweep :=
  (repairOrder files).foldl sweepFile { parents := List.range files.length }

/-- What a step of the sweep keeps holds after all of it. -/
theorem sweep_invariant (files : List FileMeta) {I : List RepairInterval → RepairSweep → Prop}
    (hinit : I [] { parents := List.range files.length })
    (hstep : ∀ P i s, NextFile files.length P i → SweepInv files.length P s → I P s →
      I (P ++ [i]) (sweepFile s i)) :
    SweepInv files.length (repairOrder files) (repairSweep files) ∧
      I (repairOrder files) (repairSweep files) := by
  have hindex : ∀ i ∈ repairOrder files, i.index < files.length := by
    intro i hi
    obtain ⟨file, hget, -⟩ := mem_repairOrder.1 hi
    exact (List.getElem?_eq_some_iff.1 hget).1
  have hordered : ∀ i ∈ repairOrder files, i.start ≤ i.stop := fun i hi => by
    obtain ⟨file, -, -, hbounds⟩ := mem_repairOrder.1 hi
    exact (le_of_completeBounds hbounds).2.2.2
  have hempty : SweepInv files.length [] { parents := range files.length } :=
    ⟨⟨id, by simp, ⟨_, .init _⟩, by simp⟩, ⟨by simp, by simp, by simp, by simp⟩, rfl, by simp,
      by simp⟩
  exact SweepInv.foldl hempty hinit hstep hindex (nodup_index_repairOrder files)
    (pairwise_order_repairOrder files) hordered

/-- A level has no repair components if its sweep finds nothing. -/
theorem repairComponents_eq_nil_iff :
    repairComponents files = [] ↔ (repairSweep files).found = false := by
  rw [repairSweep]
  constructor
  swap
  · intro h
    simp only [repairComponents, h, Bool.false_eq_true, if_false]
  intro h
  by_contra hfound
  rw [Bool.not_eq_false] at hfound
  obtain ⟨⟨rep, -, ⟨rank, hrep⟩, hpair⟩, -⟩ :=
    (sweep_invariant files (I := fun _ _ => True) trivial fun _ _ _ _ _ _ => trivial).1
  obtain ⟨i, hi, j, hj, hne, hij⟩ := hpair hfound
  obtain ⟨group, hgroup, hlen⟩ := exists_component hrep hi hj hne hij
  have hmem : group ∈ ([] : List (List ℕ)) := by
    rw [← h]
    simp only [repairComponents]
    rw [if_pos hfound, mem_insertionSort, mem_filter]
    exact ⟨hgroup, by simpa using hlen⟩
  simp at hmem

/-- A level without repair components is a sequence of files. -/
theorem pairwise_repairOrder (h : repairComponents files = []) :
    (repairOrder files).Pairwise fun i j => i.stop ≤ j.start :=
  (sweep_invariant files (I := fun _ _ => True) trivial fun _ _ _ _ _ _ => trivial).1.clear
    (repairComponents_eq_nil_iff.1 h)

/-- Of two files of a level without repair components, one ends at or before the
    start of the other. -/
theorem pairwise_of_repairComponents_eq_nil (h : repairComponents files = []) :
    files.Pairwise fun f g => ∀ a b a' b', completeBounds f = some (a, b) →
      completeBounds g = some (a', b') → b ≤ a' ∨ b' ≤ a := by
  rw [pairwise_iff_getElem]
  intro i j hi hj hij a b a' b' hf hg
  have hmem : ∀ {n} (hn : n < files.length) {s e},
      completeBounds files[n] = some (s, e) →
      (⟨n, files[n].name, s, e⟩ : RepairInterval) ∈ repairOrder files := by
    intro n hn s e hb
    exact mem_repairOrder.2 ⟨files[n], getElem?_eq_getElem hn, rfl, hb⟩
  have : Std.Symm fun i j : RepairInterval => i.stop ≤ j.start ∨ j.stop ≤ i.start :=
    ⟨fun _ _ h => h.symm⟩
  exact ((pairwise_repairOrder h).imp fun h => .inl h : (repairOrder files).Pairwise
    fun i j => i.stop ≤ j.start ∨ j.stop ≤ i.start).forall (hmem hi hf) (hmem hj hg)
    fun heq => hij.ne (congrArg RepairInterval.index heq)

end Midge
