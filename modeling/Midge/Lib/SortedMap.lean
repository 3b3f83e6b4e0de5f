import Mathlib

/-!
# Sorted maps

A list of keys with their values, in key order, is a finite map. `alter` changes the
value of a key, or adds the key at its place.
-/

namespace SortedMap

open List

variable {κ β : Type*} [LinearOrder κ] {k : κ} {f : Option β → β} {l : List (κ × β)} {e : κ × β}

/-- The keys are in order, each of them once. -/
def Sorted (l : List (κ × β)) : Prop := (l.map Prod.fst).Pairwise (· < ·)

/-- The value of a key. -/
def get? (k : κ) (l : List (κ × β)) : Option β := (l.find? fun e => decide (e.1 = k)).map Prod.snd

/-- Change the value of a key. -/
def alter (k : κ) (f : Option β → β) : List (κ × β) → List (κ × β)
  | [] => [(k, f none)]
  | e :: l =>
    match cmp k e.1 with
    | .lt => (k, f none) :: e :: l
    | .eq => (e.1, f (some e.2)) :: l
    | .gt => e :: alter k f l

theorem sorted_cons : Sorted (e :: l) ↔ (∀ a ∈ l, e.1 < a.1) ∧ Sorted l := by
  simp [Sorted]

theorem get?_cons : get? k (e :: l) = if e.1 = k then some e.2 else get? k l := by
  rw [get?, find?_cons]
  split_ifs with h <;> simp [h, get?]

theorem get?_eq_none : get? k l = none ↔ ∀ a ∈ l, a.1 ≠ k := by
  simp [get?]

theorem mem_of_get? {v : β} (h : get? k l = some v) : (k, v) ∈ l := by
  obtain ⟨⟨k', v'⟩, hfind, rfl⟩ := Option.map_eq_some_iff.1 h
  have hkey : k' = k := by simpa using find?_some hfind
  exact hkey ▸ mem_of_find?_eq_some hfind

theorem get?_of_mem (h : Sorted l) (he : e ∈ l) : get? e.1 l = some e.2 := by
  induction l with
  | nil => cases he
  | cons a l ih =>
    obtain ⟨hfirst, hrest⟩ := sorted_cons.1 h
    rw [get?_cons]
    rcases mem_cons.1 he with rfl | he
    · rw [if_pos rfl]
    · rw [if_neg (hfirst e he).ne, ih hrest he]

theorem mem_alter (h : Sorted l) :
    e ∈ alter k f l ↔ (e ∈ l ∧ e.1 ≠ k) ∨ e = (k, f (get? k l)) := by
  induction l with
  | nil => simp [alter, get?]
  | cons a l ih =>
    obtain ⟨hfirst, hrest⟩ := sorted_cons.1 h
    rw [alter, get?_cons]
    rcases lt_trichotomy k a.1 with hlt | rfl | hgt
    · have hall : ∀ b ∈ l, b.1 ≠ k := fun b hb => (hlt.trans (hfirst b hb)).ne'
      simp only [(cmp_eq_lt_iff _ _).2 hlt, if_neg hlt.ne', get?_eq_none.2 hall]
      have hne : e ∈ a :: l → e.1 ≠ k := by
        rintro (_ | ⟨_, he⟩)
        exacts [hlt.ne', hall e he]
      rw [mem_cons, or_comm, and_iff_left_of_imp hne]
    · have hne : e ∈ l → e.1 ≠ a.1 := fun he => (hfirst e he).ne'
      simp only [cmp_self_eq_eq, if_true, mem_cons]
      constructor
      · rintro (he | he)
        exacts [.inr he, .inl ⟨.inr he, hne he⟩]
      · rintro (⟨rfl | he, hkey⟩ | he)
        exacts [absurd rfl hkey, .inr he, .inl he]
    · simp only [(cmp_eq_gt_iff _ _).2 hgt, if_neg hgt.ne, mem_cons, ih hrest, or_and_right,
        or_assoc]
      refine or_congr_left (and_iff_left_of_imp ?_).symm
      rintro rfl
      exact hgt.ne

theorem mem_keys_alter (h : Sorted l) {b : κ} :
    b ∈ (alter k f l).map Prod.fst ↔ b = k ∨ b ∈ l.map Prod.fst := by
  simp only [mem_map, mem_alter h]
  constructor
  · rintro ⟨e, ⟨he, -⟩ | rfl, rfl⟩
    exacts [.inr ⟨e, he, rfl⟩, .inl rfl]
  · rintro (rfl | ⟨e, he, rfl⟩)
    · exact ⟨_, .inr rfl, rfl⟩
    · by_cases hkey : e.1 = k
      exacts [⟨_, .inr rfl, hkey.symm⟩, ⟨e, .inl ⟨he, hkey⟩, rfl⟩]

theorem Sorted.alter (h : Sorted l) : Sorted (alter k f l) := by
  induction l with
  | nil => simp [SortedMap.alter, Sorted]
  | cons a l ih =>
    obtain ⟨hfirst, hrest⟩ := sorted_cons.1 h
    rw [SortedMap.alter]
    rcases lt_trichotomy k a.1 with hlt | rfl | hgt
    · simp only [(cmp_eq_lt_iff _ _).2 hlt]
      refine sorted_cons.2 ⟨forall_mem_cons.2 ⟨hlt, fun b hb => hlt.trans (hfirst b hb)⟩, h⟩
    · simp only [cmp_self_eq_eq]
      exact sorted_cons.2 ⟨hfirst, hrest⟩
    · simp only [(cmp_eq_gt_iff _ _).2 hgt]
      refine sorted_cons.2 ⟨fun b hb => ?_, ih hrest⟩
      rcases (mem_alter hrest).1 hb with ⟨hb, -⟩ | rfl
      exacts [hfirst b hb, hgt]

/-- What a change adds to the value of the key it adds to a sum over the values. -/
theorem sum_alter {g : κ × β → ℕ} {n : ℕ}
    (h : ∀ v, g (k, f v) = (v.elim 0 fun v => g (k, v)) + n) (l : List (κ × β)) :
    ((alter k f l).map g).sum = (l.map g).sum + n := by
  induction l with
  | nil => simpa [alter] using h none
  | cons a l ih =>
    rw [alter]
    rcases lt_trichotomy k a.1 with hlt | rfl | hgt
    · simp only [(cmp_eq_lt_iff _ _).2 hlt, map_cons, sum_cons, h none, Option.elim_none]
      omega
    · simp only [cmp_self_eq_eq, map_cons, sum_cons, h (some a.2), Option.elim_some,
        Prod.mk.eta]
      omega
    · simp only [(cmp_eq_gt_iff _ _).2 hgt, map_cons, sum_cons, ih]
      omega

end SortedMap
