import Mathlib.Tactic

/-!
# Lists with keys

A list whose items have distinct keys is a finite map in the order in which the items
have been added: `lookupBy` finds the item of a key, `upsert` replaces it or adds a new
one at the end, and `replaceBy` replaces it if there is one.
-/

variable {α κ : Type*} [DecidableEq κ] (key : α → κ)

/-- The first item with the key. -/
def lookupBy (k : κ) (l : List α) : Option α := l.find? (key · = k)

/-- Replace the first item with the key of `a`, or add `a` at the end. -/
def upsert (a : α) : List α → List α
  | [] => [a]
  | b :: l => if key b = key a then a :: l else b :: upsert a l

/-- Replace the first item with the key of `a`, if there is one. -/
def replaceBy (a : α) : List α → List α
  | [] => []
  | b :: l => if key b = key a then a :: l else b :: replaceBy a l

variable {key} {k : κ} {a b : α} {l : List α}

@[simp]
theorem lookupBy_nil : lookupBy key k [] = none := rfl

theorem lookupBy_cons : lookupBy key k (b :: l) = if key b = k then some b else lookupBy key k l := by
  rw [lookupBy, List.find?_cons]
  split_ifs with h <;> simp [h, lookupBy]

theorem of_lookupBy (h : lookupBy key k l = some a) : a ∈ l ∧ key a = k :=
  ⟨List.mem_of_find?_eq_some h, by simpa using List.find?_some h⟩

theorem lookupBy_isSome : (lookupBy key k l).isSome ↔ k ∈ l.map key := by
  simp [lookupBy]

/-- With distinct keys, every item is found. -/
theorem lookupBy_of_mem (hnodup : (l.map key).Nodup) (h : a ∈ l) :
    lookupBy key (key a) l = some a := by
  induction l with
  | nil => cases h
  | cons b l ih =>
    rw [List.map_cons, List.nodup_cons] at hnodup
    rw [lookupBy_cons]
    rcases List.mem_cons.1 h with rfl | h
    · rw [if_pos rfl]
    · rw [if_neg, ih hnodup.2 h]
      intro heq
      exact hnodup.1 (heq ▸ List.mem_map_of_mem h)

theorem lookupBy_upsert : lookupBy key k (upsert key a l) =
    if k = key a then some a else lookupBy key k l := by
  induction l with
  | nil => simp [upsert, lookupBy_cons, eq_comm]
  | cons b l ih =>
    rw [upsert]
    split_ifs with hb ha ha
    · rw [lookupBy_cons, if_pos ha.symm]
    · rw [lookupBy_cons, lookupBy_cons, if_neg (Ne.symm ha), if_neg (hb ▸ Ne.symm ha)]
    · rw [lookupBy_cons, if_neg (ha ▸ hb), ih, if_pos ha]
    · rw [lookupBy_cons, lookupBy_cons, ih, if_neg ha]

theorem mem_map_upsert : k ∈ (upsert key a l).map key ↔ k = key a ∨ k ∈ l.map key := by
  rw [← lookupBy_isSome, lookupBy_upsert, ← lookupBy_isSome]
  split_ifs with h <;> simp [h]

theorem nodup_upsert (h : (l.map key).Nodup) : ((upsert key a l).map key).Nodup := by
  induction l with
  | nil => simp [upsert]
  | cons b l ih =>
    rw [List.map_cons, List.nodup_cons] at h
    rw [upsert]
    split_ifs with hb
    · rw [List.map_cons, List.nodup_cons, ← hb]
      exact h
    · rw [List.map_cons, List.nodup_cons]
      refine ⟨fun hmem => ?_, ih h.2⟩
      rcases mem_map_upsert.1 hmem with heq | hmem
      exacts [hb heq, h.1 hmem]

theorem map_replaceBy : (replaceBy key a l).map key = l.map key := by
  induction l with
  | nil => rfl
  | cons b l ih =>
    rw [replaceBy]
    split_ifs with hb
    · rw [List.map_cons, List.map_cons, hb]
    · rw [List.map_cons, List.map_cons, ih]

theorem lookupBy_replaceBy : lookupBy key k (replaceBy key a l) =
    if k = key a then (lookupBy key k l).map fun _ => a else lookupBy key k l := by
  induction l with
  | nil => simp [replaceBy]
  | cons b l ih =>
    rw [replaceBy]
    split_ifs with hb ha ha
    · rw [lookupBy_cons, lookupBy_cons, if_pos ha.symm, if_pos (hb.trans ha.symm), Option.map_some]
    · rw [lookupBy_cons, lookupBy_cons, if_neg (Ne.symm ha), if_neg (hb ▸ Ne.symm ha)]
    · rw [lookupBy_cons, lookupBy_cons, if_neg (ha ▸ hb), if_neg (ha ▸ hb), ih, if_pos ha]
    · rw [lookupBy_cons, lookupBy_cons, ih, if_neg ha]

theorem lookupBy_filter_ne {k' : κ} : lookupBy key k (l.filter (key · ≠ k')) =
    if k = k' then none else lookupBy key k l := by
  induction l with
  | nil => simp
  | cons b l ih =>
    rw [List.filter_cons]
    split_ifs with hb hk hk
    · rw [lookupBy_cons, if_neg, ih, if_pos hk]
      simpa [hk] using hb
    · rw [lookupBy_cons, lookupBy_cons, ih, if_neg hk]
    · rw [ih, if_pos hk]
    · rw [lookupBy_cons, if_neg, ih, if_neg hk]
      simp only [ne_eq, decide_not, Bool.not_eq_true', decide_eq_false_iff_not, not_not] at hb
      exact fun h => hk (h.symm.trans hb)

/-- The items after an update: the new one, and those with another key. -/
theorem mem_upsert (hnodup : (l.map key).Nodup) :
    b ∈ upsert key a l ↔ b = a ∨ b ∈ l ∧ key b ≠ key a := by
  constructor
  · intro h
    have hlookup := lookupBy_of_mem (nodup_upsert hnodup) h
    rw [lookupBy_upsert] at hlookup
    split_ifs at hlookup with heq
    · exact .inl (Option.some.inj hlookup).symm
    · exact .inr ⟨(of_lookupBy hlookup).1, heq⟩
  · rintro (rfl | ⟨hmem, hne⟩)
    · have hlookup : lookupBy key (key b) (upsert key b l) = some b :=
        lookupBy_upsert.trans (if_pos rfl)
      exact (of_lookupBy hlookup).1
    · have hlookup : lookupBy key (key b) (upsert key a l) = some b := by
        rw [lookupBy_upsert, if_neg hne, lookupBy_of_mem hnodup hmem]
      exact (of_lookupBy hlookup).1

theorem mem_replaceBy (h : b ∈ replaceBy key a l) : b = a ∧ key a ∈ l.map key ∨ b ∈ l := by
  induction l with
  | nil => cases h
  | cons c l ih =>
    rw [replaceBy] at h
    split_ifs at h with hc
    · rcases List.mem_cons.1 h with rfl | h
      · exact .inl ⟨rfl, by simp [hc]⟩
      · exact .inr (.tail _ h)
    · rcases List.mem_cons.1 h with rfl | h
      · exact .inr (.head _)
      · rcases ih h with ⟨rfl, hmem⟩ | hmem
        · exact .inl ⟨rfl, .tail _ hmem⟩
        · exact .inr (.tail _ hmem)
