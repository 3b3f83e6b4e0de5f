import Mathlib

/-!
# Union-find

Disjoint sets of the indices of a list of parents, with path compression. The
list is understood through the function that sends each index to the root of
its tree (`Represents`): finding a root changes the parents but not that
function, and connecting two indices makes their roots equal and otherwise
keeps equal roots equal.

Paths end because some rank strictly decreases along them; with the number of
indices as fuel, a root is always reached.

After any number of connections two indices have the same root if and only if a
chain of connections joins them (`Tracks`).
-/

namespace UnionFind

open List

/-- The root of `index`, and the parents with the path to it compressed. The
    fuel bounds the length of the path. -/
def root : ℕ → List ℕ → ℕ → List ℕ × ℕ
  | 0, parents, index => (parents, index)
  | fuel + 1, parents, index =>
    let parent := parents.getD index index
    if parent ≠ index then
      let (parents, r) := root fuel parents parent
      (parents.set index r, r)
    else (parents, index)

/-- Join the trees of `left` and `right`. -/
def connect (parents : List ℕ) (left right : ℕ) : List ℕ :=
  let (parents, left) := root parents.length parents left
  let (parents, right) := root parents.length parents right
  if left ≠ right then parents.set right left else parents

/-- `rep` sends every index to the root of its tree. -/
structure Represents (parents : List ℕ) (rep rank : ℕ → ℕ) : Prop where
  bounded : ∀ p ∈ parents, p < parents.length
  parent : ∀ i, rep (parents.getD i i) = rep i
  rep_root : ∀ i, parents.getD (rep i) (rep i) = rep i
  root_rep : ∀ i, parents.getD i i = i → rep i = i
  rank_lt : ∀ i, parents.getD i i ≠ i → rank (parents.getD i i) < rank i

variable {i : ℕ}

theorem getD_set {l : List ℕ} {j a : ℕ} (hi : i < l.length) :
    (l.set i a).getD j j = if j = i then a else l.getD j j := by
  rcases eq_or_ne j i with rfl | hne
  · simp [getD_eq_getElem?_getD, hi]
  · simp [getD_eq_getElem?_getD, hne, hne.symm]

theorem lt_length_of_getD_ne {l : List ℕ} (h : l.getD i i ≠ i) : i < l.length := by
  by_contra hi
  exact h (by simp [getD_eq_getElem?_getD, not_lt.1 hi])

namespace Represents

variable {parents : List ℕ} {rep rank : ℕ → ℕ}

theorem init (n : ℕ) : Represents (List.range n) id fun _ => 0 := by
  have hself : ∀ i, (range n).getD i i = i := by
    intro i
    rcases lt_or_ge i n with hi | hi <;> simp [getD_eq_getElem?_getD, hi]
  refine ⟨by simp, fun i => by rw [hself], fun i => hself _, fun i _ => rfl, fun i h => ?_⟩
  exact absurd (hself i) h

section

variable (h : Represents parents rep rank)

include h

theorem getD_lt (hi : i < parents.length) :
    parents.getD i i < parents.length := by
  rw [getD_eq_getElem?_getD, getElem?_eq_getElem hi]
  exact h.bounded _ (getElem_mem hi)

/-- The root has a lower rank. -/
theorem rank_rep_lt (hi : rep i ≠ i) : rank (rep i) < rank i := by
  induction hr : rank i using Nat.strong_induction_on generalizing i with
  | _ r ih =>
    have hparent : parents.getD i i ≠ i := fun hp => hi (h.root_rep i hp)
    have hlt := h.rank_lt i hparent
    rcases eq_or_ne (rep (parents.getD i i)) (parents.getD i i) with heq | hne
    · rw [← h.parent i, heq]
      omega
    · rw [← h.parent i]
      exact (ih _ (hr ▸ hlt) hne rfl).trans (hr ▸ hlt)

theorem rep_rep (i : ℕ) : rep (rep i) = rep i :=
  h.root_rep _ (h.rep_root i)

theorem rep_lt (hi : i < parents.length) :
    rep i < parents.length := by
  induction hr : rank i using Nat.strong_induction_on generalizing i with
  | _ r ih =>
    by_cases hparent : parents.getD i i = i
    · rwa [h.root_rep i hparent]
    · rw [← h.parent i]
      exact ih _ (hr ▸ h.rank_lt i hparent) (h.getD_lt hi) rfl

/-- Compressing a path keeps the roots. -/
theorem compress (hi : parents.getD i i ≠ i) :
    Represents (parents.set i (rep i)) rep rank := by
  have hlen := lt_length_of_getD_ne hi
  have hget : ∀ j, (parents.set i (rep i)).getD j j =
      if j = i then rep i else parents.getD j j := fun j => getD_set hlen
  have hrep : rep i ≠ i := fun heq => hi (by simpa [heq] using h.rep_root i)
  refine ⟨fun p hp => ?_, fun j => ?_, fun j => ?_, fun j hj => ?_, fun j hj => ?_⟩
  · rw [length_set]
    rcases mem_or_eq_of_mem_set hp with hp | rfl
    exacts [h.bounded p hp, h.rep_lt hlen]
  all_goals rw [hget] at *
  · split_ifs with hji
    · rw [h.rep_rep, hji]
    · exact h.parent j
  · split_ifs with hji
    · have := h.rep_rep j
      rw [hji] at this
      rw [this, hji]
    · exact h.rep_root j
  · split_ifs at hj with hji
    · rw [hji] at hj
      exact absurd hj hrep
    · exact h.root_rep j hj
  · split_ifs at hj ⊢ with hji
    · rw [hji]
      exact h.rank_rep_lt hrep
    · exact h.rank_lt j hj

end

/-- The indices of a lower rank. -/
def below (parents : List ℕ) (rank : ℕ → ℕ) (i : ℕ) : Finset ℕ :=
  (Finset.range parents.length).filter fun j => rank j < rank i

section

variable (h : Represents parents rep rank)

include h

theorem root_of_fuel {fuel : ℕ} (hfuel : (below parents rank i).card ≤ fuel) :
    (root fuel parents i).2 = rep i ∧ (root fuel parents i).1.length = parents.length ∧
      Represents (root fuel parents i).1 rep rank := by
  induction fuel generalizing i with
  | zero =>
    rw [Nat.le_zero, Finset.card_eq_zero] at hfuel
    have hroot : parents.getD i i = i := by
      by_contra hne
      have hmem : parents.getD i i ∈ below parents rank i := by
        rw [below, Finset.mem_filter, Finset.mem_range]
        exact ⟨h.getD_lt (lt_length_of_getD_ne hne), h.rank_lt i hne⟩
      rw [hfuel] at hmem
      exact absurd hmem (Finset.notMem_empty _)
    exact ⟨(h.root_rep i hroot).symm, rfl, h⟩
  | succ fuel ih =>
    rw [root]
    split_ifs with hparent
    · -- The parent has fewer indices below it.
      have hlt : (below parents rank (parents.getD i i)).card < (below parents rank i).card := by
        refine Finset.card_lt_card ⟨fun j hj => ?_, fun hsub => ?_⟩
        · rw [below, Finset.mem_filter] at hj ⊢
          exact ⟨hj.1, hj.2.trans (h.rank_lt i hparent)⟩
        · have hmem : parents.getD i i ∈ below parents rank i := by
            rw [below, Finset.mem_filter, Finset.mem_range]
            exact ⟨h.getD_lt (lt_length_of_getD_ne hparent), h.rank_lt i hparent⟩
          have := hsub hmem
          rw [below, Finset.mem_filter] at this
          exact lt_irrefl _ this.2
      obtain ⟨hr, hlen, hrep⟩ := @ih (parents.getD i i) (by omega)
      rw [h.parent] at hr
      simp only [hr, length_set, hlen, true_and]
      by_cases hi : (root fuel parents (parents.getD i i)).1.getD i i = i
      · -- Compression never makes an index a root.
        have := hrep.root_rep i hi
        exact absurd (by simpa [this] using h.rep_root i) hparent
      · exact hrep.compress hi
    · rw [not_not] at hparent
      exact ⟨(h.root_rep i hparent).symm, rfl, h⟩

/-- Finding a root returns it, and changes no root. -/
theorem root (i : ℕ) :
    (UnionFind.root parents.length parents i).2 = rep i ∧
      (UnionFind.root parents.length parents i).1.length = parents.length ∧
      Represents (UnionFind.root parents.length parents i).1 rep rank := by
  refine h.root_of_fuel ((Finset.card_filter_le _ _).trans ?_)
  rw [Finset.card_range]

/-- Linking a root to another one. -/
theorem link {l r : ℕ} (hl : rep l = l) (hr : rep r = r) (hlt : l < parents.length)
    (hrt : r < parents.length) (hne : l ≠ r) :
    Represents (parents.set r l) (fun i => if rep i = r then l else rep i)
      fun i => if rep i = r then rank i + rank l + 1 else rank i := by
  have hget : ∀ j, (parents.set r l).getD j j = if j = r then l else parents.getD j j :=
    fun j => getD_set hrt
  have hrr : parents.getD r r = r := by simpa [hr] using h.rep_root r
  have hll : parents.getD l l = l := by simpa [hl] using h.rep_root l
  refine ⟨fun p hp => ?_, fun j => ?_, fun j => ?_, fun j hj => ?_, fun j hj => ?_⟩
  · rw [length_set]
    rcases mem_or_eq_of_mem_set hp with hp | rfl
    exacts [h.bounded p hp, hlt]
  all_goals rw [hget] at *
  · rcases eq_or_ne j r with rfl | hjr
    · simp [hl, hr, hne]
    · simp only [if_neg hjr, h.parent]
  · rcases eq_or_ne (rep j) r with hj | hj
    · simp only [if_pos hj, if_neg hne, hll]
    · simp only [if_neg hj, h.rep_root]
  · rcases eq_or_ne j r with rfl | hjr
    · simp [hne] at hj
    · rw [if_neg hjr] at hj
      have := h.root_rep j hj
      simp [this, hjr]
  · rcases eq_or_ne j r with rfl | hjr
    · rw [if_pos rfl, hl, hr, if_neg hne, if_pos rfl]
      omega
    · simp only [if_neg hjr, h.parent] at hj ⊢
      have := h.rank_lt j hj
      split_ifs <;> omega

/-- Connecting two indices makes their roots equal. -/
theorem connect {l r : ℕ} (hl : l < parents.length) (hr : r < parents.length) :
    (UnionFind.connect parents l r).length = parents.length ∧
      ∃ rank', Represents (UnionFind.connect parents l r)
        (fun i => if rep i = rep r then rep l else rep i) rank' := by
  obtain ⟨hl₂, hlen₁, h₁⟩ := h.root l
  obtain ⟨hr₂, hlen₂, h₂⟩ := h₁.root r
  rw [hlen₁] at hr₂ hlen₂ h₂
  simp only [UnionFind.connect, hl₂, hlen₁, hr₂]
  split_ifs with hne
  · refine ⟨by rw [length_set, hlen₂], _, h₂.link (h.rep_rep l) (h.rep_rep r) ?_ ?_ hne⟩
    · rw [hlen₂]
      exact h.rep_lt hl
    · rw [hlen₂]
      exact h.rep_lt hr
  · refine ⟨hlen₂, rank, ?_⟩
    rw [not_not] at hne
    have hsame : (fun i => if rep i = rep r then rep l else rep i) = rep := by
      funext i
      split_ifs with hi
      · rw [hi, hne]
      · rfl
    rwa [hsame]

end

end Represents

/-! ## Connected indices -/

/-- Two of the `n` indices have the same root if the relation joins them. -/
def Tracks (n : ℕ) (parents : List ℕ) (R : ℕ → ℕ → Prop) : Prop :=
  parents.length = n ∧ ∃ rep rank, Represents parents rep rank ∧
    ∀ a b, rep a = rep b ↔ Relation.EqvGen R a b

namespace Tracks

variable {n : ℕ} {parents : List ℕ} {R R' : ℕ → ℕ → Prop}

theorem init (n : ℕ) : Tracks n (List.range n) fun _ _ => False := by
  refine ⟨length_range, id, _, .init n, fun a b => ⟨?_, fun h => ?_⟩⟩
  · rintro rfl
    exact .refl _
  · induction h with
    | rel _ _ h => exact h.elim
    | refl => rfl
    | symm _ _ _ ih => exact ih.symm
    | trans _ _ _ _ _ ih₁ ih₂ => exact ih₁.trans ih₂

/-- Only the equivalence counts. -/
theorem congr (h : Tracks n parents R) (hle : ∀ a b, R a b → Relation.EqvGen R' a b)
    (hge : ∀ a b, R' a b → Relation.EqvGen R a b) : Tracks n parents R' := by
  obtain ⟨hlength, rep, rank, hrep, hiff⟩ := h
  refine ⟨hlength, rep, rank, hrep, fun a b => (hiff a b).trans ⟨fun h => ?_, fun h => ?_⟩⟩
  · exact (Relation.EqvGen.is_equivalence R').eqvGen_iff.1 (h.mono hle)
  · exact (Relation.EqvGen.is_equivalence R).eqvGen_iff.1 (h.mono hge)

/-- Connecting two indices adds a pair to the relation. -/
theorem connect (h : Tracks n parents R) {l r : ℕ} (hl : l < n) (hr : r < n) :
    Tracks n (UnionFind.connect parents l r) fun a b => R a b ∨ a = l ∧ b = r := by
  obtain ⟨hlength, rep, rank, hrep, hiff⟩ := h
  obtain ⟨hlength', rank', hrep'⟩ := hrep.connect (hlength.symm ▸ hl) (hlength.symm ▸ hr)
  refine ⟨hlength'.trans hlength, _, rank', hrep', fun a b => ⟨fun heq => ?_, fun h => ?_⟩⟩
  · have hold : ∀ {a b}, rep a = rep b →
        Relation.EqvGen (fun a b => R a b ∨ a = l ∧ b = r) a b := fun heq =>
      ((hiff _ _).1 heq).mono fun _ _ => .inl
    have hnew : Relation.EqvGen (fun a b => R a b ∨ a = l ∧ b = r) r l :=
      .symm _ _ (.rel _ _ (.inr ⟨rfl, rfl⟩))
    split_ifs at heq with ha hb hb
    · exact hold (ha.trans hb.symm)
    · exact .trans _ _ _ (hold ha) (.trans _ _ _ hnew (hold heq))
    · exact .symm _ _ (.trans _ _ _ (hold hb) (.trans _ _ _ hnew (hold heq.symm)))
    · exact hold heq
  · induction h with
    | rel a b h =>
      rcases h with h | ⟨rfl, rfl⟩
      · simp only [(hiff a b).2 (.rel _ _ h)]
      · simp only [if_true]
        split_ifs <;> rfl
    | refl => rfl
    | symm _ _ _ ih => exact ih.symm
    | trans _ _ _ _ _ ih₁ ih₂ => exact ih₁.trans ih₂

/-- Connecting an index to each of a list. -/
theorem foldl_connect (h : Tracks n parents R) {index : ℕ} {reps : List ℕ} (hindex : index < n)
    (hreps : ∀ r ∈ reps, r < n) :
    Tracks n (reps.foldl (fun parents r => UnionFind.connect parents index r) parents)
      fun a b => R a b ∨ a = index ∧ b ∈ reps := by
  induction reps generalizing parents R with
  | nil =>
    refine h.congr (fun a b h => .rel _ _ (.inl h)) fun a b h => .rel _ _ ?_
    exact h.resolve_right fun hmem => not_mem_nil hmem.2
  | cons r reps ih =>
    obtain ⟨hr, hreps⟩ := forall_mem_cons.1 hreps
    refine (ih (h.connect hindex hr) hreps).congr (fun a b h => .rel _ _ ?_)
      fun a b h => .rel _ _ ?_
    · rcases h with (h | ⟨rfl, rfl⟩) | ⟨rfl, h⟩
      · exact .inl h
      · exact .inr ⟨rfl, mem_cons_self⟩
      · exact .inr ⟨rfl, mem_cons_of_mem _ h⟩
    · rcases h with h | ⟨rfl, h⟩
      · exact .inl (.inl h)
      · rcases mem_cons.1 h with rfl | h
        · exact .inl (.inr ⟨rfl, rfl⟩)
        · exact .inr ⟨rfl, h⟩

end Tracks

end UnionFind
