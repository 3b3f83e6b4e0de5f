import Mathlib

/-!
# The newest element of a set

Elements carry a number, their age. `IsNewest age S o` says that `o` is an
element of `S` of the greatest age, or that `S` is empty and `o` is `none`. When
different elements of `S` have different ages there is only one such `o`, no
matter in which order or in which groups the elements have been compared.

`IsAny S o` says less: `o` is some element of `S`, or that `S` is empty. It is
what a search finds that stops at the first element that it comes across.
-/

/-- `o` is an element of `S` of the greatest age, if there is any. -/
def IsNewest {α : Type*} (age : α → ℕ) (S : Set α) : Option α → Prop
  | none => S = ∅
  | some a => a ∈ S ∧ ∀ b ∈ S, age b ≤ age a

namespace IsNewest

open List

variable {α ι : Type*} {age : α → ℕ} {S T : Set α} {o o' : Option α} {a : α}

theorem empty : IsNewest age (∅ : Set α) none := rfl

theorem mem (h : IsNewest age S (some a)) : a ∈ S := h.1

theorem unique (hS : Set.InjOn age S) (h : IsNewest age S o) (h' : IsNewest age S o') : o = o' := by
  cases o with
  | none =>
    cases o' with
    | none => rfl
    | some b =>
      rw [show S = ∅ from h] at h'
      exact absurd h'.1 (Set.notMem_empty b)
  | some a =>
    cases o' with
    | none =>
      rw [show S = ∅ from h'] at h
      exact absurd h.1 (Set.notMem_empty a)
    | some b => rw [hS h.1 h'.1 (le_antisymm (h'.2 a h.1) (h.2 b h'.1))]

/-- A newer element replaces the newest one. -/
theorem insert_of_lt (h : IsNewest age S o) (hlt : ∀ b ∈ o, age b ≤ age a) :
    IsNewest age (insert a S) (some a) := by
  refine ⟨Set.mem_insert a S, fun b hb => ?_⟩
  rcases Set.mem_insert_iff.1 hb with rfl | hb
  · exact le_rfl
  · cases o with
    | none => exact absurd hb (by rw [show S = ∅ from h]; exact Set.notMem_empty b)
    | some c => exact (h.2 b hb).trans (hlt c rfl)

/-- An older element does not. -/
theorem insert_of_le {b : α} (h : IsNewest age S (some b)) (hle : age a ≤ age b) :
    IsNewest age (insert a S) (some b) := by
  refine ⟨Set.mem_insert_of_mem a h.1, fun c hc => ?_⟩
  rcases Set.mem_insert_iff.1 hc with rfl | hc
  exacts [hle, h.2 c hc]

/-- Nor do any number of older elements. -/
theorem union_of_le {b : α} (h : IsNewest age S (some b)) (hle : ∀ a ∈ T, age a ≤ age b) :
    IsNewest age (S ∪ T) (some b) :=
  ⟨.inl h.1, fun c hc => hc.elim (h.2 c) (hle c)⟩

/-- The newest of the newest elements of some sets is the newest of all. -/
theorem biUnion {I : Set ι} {S : ι → Set α} {newest : ι → Option α}
    (h : ∀ i ∈ I, IsNewest age (S i) (newest i))
    (hnewest : IsNewest age {a | ∃ i ∈ I, newest i = some a} o) :
    IsNewest age {a | ∃ i ∈ I, a ∈ S i} o := by
  -- Every element is as old as the newest one of its set, or older.
  have hle : ∀ i ∈ I, ∀ a ∈ S i, ∃ b, newest i = some b ∧ age a ≤ age b := by
    intro i hi a ha
    have hi' := h i hi
    cases hn : newest i with
    | none =>
      rw [hn] at hi'
      rw [show S i = ∅ from hi'] at ha
      exact absurd ha (Set.notMem_empty a)
    | some b =>
      rw [hn] at hi'
      exact ⟨b, rfl, hi'.2 a ha⟩
  cases o with
  | none =>
    refine Set.eq_empty_iff_forall_notMem.2 ?_
    rintro a ⟨i, hi, ha⟩
    obtain ⟨b, hb, -⟩ := hle i hi a ha
    exact Set.eq_empty_iff_forall_notMem.1 hnewest b ⟨i, hi, hb⟩
  | some a =>
    obtain ⟨⟨i, hi, ha⟩, hmax⟩ := hnewest
    have hi' := h i hi
    rw [ha] at hi'
    refine ⟨⟨i, hi, hi'.1⟩, ?_⟩
    rintro b ⟨j, hj, hb⟩
    obtain ⟨c, hc, hbc⟩ := hle j hj b hb
    exact hbc.trans (hmax c ⟨j, hj, hc⟩)

/-- A greatest element of a list. -/
theorem argmax (l : List α) : IsNewest age {a | a ∈ l} (l.argmax age) := by
  cases h : l.argmax age with
  | none => simp [IsNewest, argmax_eq_none.1 h]
  | some a => exact ⟨argmax_mem h, fun b hb => le_of_mem_argmax hb h⟩

/-- The greatest of a list of numbers. -/
theorem max? (l : List ℕ) : IsNewest id {n | n ∈ l} l.max? := by
  cases h : l.max? with
  | none => simp [IsNewest, max?_eq_none_iff.1 h]
  | some n =>
    obtain ⟨hmem, hle⟩ := max?_eq_some_iff.1 h
    exact ⟨hmem, hle⟩

/-- In a list of growing ages the last element of a kind is the newest one. -/
theorem find?_reverse {p : α → Prop} [DecidablePred p] {l : List α}
    (h : l.Pairwise fun a b => age a < age b) :
    IsNewest age {a | a ∈ l ∧ p a} (l.reverse.find? p) := by
  induction l with
  | nil => simp [IsNewest]
  | cons a l ih =>
    obtain ⟨hlt, hl⟩ := pairwise_cons.1 h
    have ih := ih hl
    rw [reverse_cons, find?_append]
    cases hfind : l.reverse.find? p with
    | none =>
      rw [hfind] at ih
      have hnone : ∀ b ∈ l, ¬p b := fun b hb hp => Set.eq_empty_iff_forall_notMem.1 ih b ⟨hb, hp⟩
      rw [Option.none_or, find?_singleton]
      split_ifs with hp
      · refine ⟨⟨mem_cons_self, of_decide_eq_true hp⟩, ?_⟩
        rintro b ⟨hb, hpb⟩
        rcases mem_cons.1 hb with rfl | hb
        exacts [le_rfl, absurd hpb (hnone b hb)]
      · refine Set.eq_empty_iff_forall_notMem.2 ?_
        rintro b ⟨hb, hpb⟩
        rcases mem_cons.1 hb with rfl | hb
        exacts [hp (decide_eq_true hpb), hnone b hb hpb]
    | some c =>
      rw [hfind] at ih
      rw [Option.some_or]
      refine ⟨⟨mem_cons_of_mem _ ih.mem.1, ih.mem.2⟩, ?_⟩
      rintro b ⟨hb, hpb⟩
      rcases mem_cons.1 hb with rfl | hb
      exacts [(hlt c ih.mem.1).le, ih.2 b ⟨hb, hpb⟩]

end IsNewest

/-- `o` is an element of `S`, if there is any. -/
def IsAny {α : Type*} (S : Set α) : Option α → Prop
  | none => S = ∅
  | some a => a ∈ S

namespace IsAny

variable {α ι : Type*} {S T : Set α} {o o' : Option α} {a : α}

theorem isSome_iff (h : IsAny S o) : o.isSome ↔ S.Nonempty := by
  cases o with
  | none => simp [show S = ∅ from h]
  | some a => exact iff_of_true rfl ⟨a, h⟩

/-- A search of a part of the set, if it may leave out the rest. -/
theorem mono (h : IsAny S o) (hsub : S ⊆ T) (hne : T.Nonempty → S.Nonempty) : IsAny T o := by
  cases o with
  | none =>
    refine Set.not_nonempty_iff_eq_empty.1 fun hT => ?_
    have := hne hT
    simp [show S = ∅ from h] at this
  | some a => exact hsub h

/-- The second search goes on where the first one finds nothing. -/
theorem orElse (h : IsAny S o) (h' : IsAny T o') : IsAny (S ∪ T) (o <|> o') := by
  cases o with
  | none =>
    rw [show S = ∅ from h, Set.empty_union]
    exact h'
  | some a => exact .inl h

/-- A search through the elements of a list. -/
theorem findSome? {l : List ι} {f : ι → Option α} {S : ι → Set α}
    (h : ∀ i ∈ l, IsAny (S i) (f i)) : IsAny {a | ∃ i ∈ l, a ∈ S i} (l.findSome? f) := by
  induction l with
  | nil => simp [IsAny]
  | cons i l ih =>
    have hset : {a | ∃ j ∈ i :: l, a ∈ S j} = S i ∪ {a | ∃ j ∈ l, a ∈ S j} := by
      ext a
      simp
    have hfind : (i :: l).findSome? f = (f i <|> l.findSome? f) := by
      rw [List.findSome?_cons]
      cases f i <;> rfl
    rw [hset, hfind]
    exact (h i List.mem_cons_self).orElse (ih fun j hj => h j (List.mem_cons_of_mem _ hj))

end IsAny
