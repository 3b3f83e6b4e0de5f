import Mathlib

/-!
# K-way merges

Merging several streams, each read through a cursor that may fail, by keeping
the head of every stream in a heap and repeatedly taking the least one. The
heap is a list from which the least item is popped (`popMin`); which of several
equal items comes first is the business of the order `le`.

A step of the merge only moves items (`popMin_perm`, `advance_perm`), and when
every stream is sorted by a key that `le` respects, the item it takes has the
least key of all those left (`key_le_of_popMin`). So the merge yields the items
of all the streams in key order.
-/

namespace KWayMerge

open List

variable {α β ε : Type}

/-! ## Popping the least item -/

section PopMin

variable (le : β → β → Bool)

/-- The least item of a list (the first of them), and the others. -/
def popMin : List β → Option (β × List β)
  | [] => none
  | a :: l =>
    match popMin l with
    | none => some (a, l)
    | some (m, r) => if le a m then some (a, l) else some (m, a :: r)

variable {le}

theorem popMin_eq_none {l : List β} : popMin le l = none ↔ l = [] := by
  cases l with
  | nil => simp [popMin]
  | cons a l =>
    simp only [popMin, reduceCtorEq, iff_false]
    split
    · simp
    · split <;> simp

theorem popMin_perm {l r : List β} {a : β} (h : popMin le l = some (a, r)) : l.Perm (a :: r) := by
  induction l generalizing a r with
  | nil => cases h
  | cons b l ih =>
    simp only [popMin] at h
    split at h
    · cases h
      exact .refl _
    next m r' hm =>
      split at h
      · cases h
        exact .refl _
      · cases h
        exact ((ih hm).cons b).trans (.swap ..)

theorem popMin_le (hle : ∀ a b, le a b ∨ le b a) (htrans : ∀ a b c, le a b → le b c → le a c)
    {l r : List β} {a : β} (h : popMin le l = some (a, r)) : ∀ b ∈ r, le a b := by
  induction l generalizing a r with
  | nil => cases h
  | cons b l ih =>
    simp only [popMin] at h
    split at h
    next hn =>
      cases h
      rw [popMin_eq_none.1 hn]
      simp
    next m r' hm =>
      split at h
      next hbm =>
        cases h
        intro c hc
        rcases mem_cons.1 ((popMin_perm hm).mem_iff.1 hc) with rfl | hc
        · exact hbm
        · exact htrans _ _ _ hbm (ih hm c hc)
      next hbm =>
        cases h
        intro c hc
        rcases mem_cons.1 hc with rfl | hc
        · exact (hle _ c).resolve_right hbm
        · exact ih hm c hc

end PopMin

/-! ## Streams and their heads -/

/-- The items read successfully from a cursor. -/
def oks (l : List (Except ε α)) : List α := l.filterMap Except.toOption

@[simp]
theorem oks_nil : oks ([] : List (Except ε α)) = [] := rfl

@[simp]
theorem oks_ok (a : α) (l : List (Except ε α)) : oks (.ok a :: l) = a :: oks l := rfl

@[simp]
theorem oks_error (e : ε) (l : List (Except ε α)) : oks (.error e :: l) = oks l := rfl

theorem oks_append (l l' : List (Except ε α)) : oks (l ++ l') = oks l ++ oks l' :=
  filterMap_append

/-- A cursor without failures yields all its items. -/
@[simp]
theorem oks_map_ok (l : List α) : oks (l.map (Except.ok : α → Except ε α)) = l := by
  induction l with
  | nil => rfl
  | cons a l ih => simp [ih]

/-- A stream of the merge: its head, and its cursor after it. -/
structure Input (ε α : Type) where
  idx : ℕ
  head : α
  cursor : List (Except ε α)

/-- The items a stream still holds. -/
def Input.items (i : Input ε α) : List α := i.head :: oks i.cursor

/-- The items left in the merge. -/
def remaining (heap : List (Input ε α)) : List α := heap.flatMap Input.items

@[simp]
theorem remaining_nil : remaining ([] : List (Input ε α)) = [] := rfl

@[simp]
theorem remaining_cons (i : Input ε α) (heap : List (Input ε α)) :
    remaining (i :: heap) = i.items ++ remaining heap := rfl

theorem remaining_perm {h₁ h₂ : List (Input ε α)} (h : h₁.Perm h₂) :
    (remaining h₁).Perm (remaining h₂) := h.flatMap_right _

theorem remaining_eq_nil {heap : List (Input ε α)} : remaining heap = [] ↔ heap = [] := by
  cases heap with
  | nil => simp
  | cons i heap => simp [Input.items]

/-- Put the stream `i` back with its next item as head, unless it has ended. -/
def advance (i : Input ε α) (others : List (Input ε α)) : Except ε (List (Input ε α)) :=
  match i.cursor with
  | [] => .ok others
  | .ok a :: cursor => .ok (⟨i.idx, a, cursor⟩ :: others)
  | .error e :: _ => .error e

theorem advance_perm {i : Input ε α} {others heap : List (Input ε α)}
    (h : advance i others = .ok heap) : (i.head :: remaining heap).Perm (remaining (i :: others)) := by
  obtain ⟨idx, head, cursor⟩ := i
  match cursor, h with
  | [], h =>
    cases h
    exact .refl _
  | .ok a :: cursor, h =>
    cases h
    exact .refl _

/-- Read the head of every stream, numbering them from `n`. -/
def openInputs : ℕ → List (List (Except ε α)) → Except ε (List (Input ε α))
  | _, [] => .ok []
  | n, [] :: streams => openInputs (n + 1) streams
  | n, (.ok a :: cursor) :: streams => do
    let heap ← openInputs (n + 1) streams
    return ⟨n, a, cursor⟩ :: heap
  | _, (.error e :: _) :: _ => .error e

theorem openInputs_ok_cons {n : ℕ} {a : α} {cursor : List (Except ε α)}
    {streams : List (List (Except ε α))} {heap : List (Input ε α)}
    (h : openInputs n ((.ok a :: cursor) :: streams) = .ok heap) :
    ∃ heap', openInputs (n + 1) streams = .ok heap' ∧ heap = ⟨n, a, cursor⟩ :: heap' := by
  rw [openInputs] at h
  cases h' : openInputs (n + 1) streams with
  | error e => rw [h'] at h; cases h
  | ok heap' => rw [h'] at h; cases h; exact ⟨heap', rfl, rfl⟩

theorem openInputs_remaining {n : ℕ} {streams : List (List (Except ε α))} {heap : List (Input ε α)}
    (h : openInputs n streams = .ok heap) : remaining heap = streams.flatMap oks := by
  induction streams generalizing n heap with
  | nil =>
    cases h
    rfl
  | cons s streams ih =>
    match s, h with
    | [], h => simpa using ih h
    | .ok a :: cursor, h =>
      obtain ⟨heap', h', rfl⟩ := openInputs_ok_cons h
      simp [Input.items, ih h']

/-! ## Failures

A failure is never passed over: a merge that runs to its end has read streams
without any. -/

/-- Nothing failed. -/
def Clean (l : List (Except ε α)) : Prop := ∀ x ∈ l, ∃ a, x = .ok a

/-- None of the cursors has a failure left. -/
def CleanInputs (heap : List (Input ε α)) : Prop := ∀ i ∈ heap, Clean i.cursor

theorem advance_clean {i : Input ε α} {others heap : List (Input ε α)}
    (h : advance i others = .ok heap) (hc : CleanInputs heap) : CleanInputs (i :: others) := by
  obtain ⟨idx, head, cursor⟩ := i
  match cursor, h with
  | [], h =>
    cases h
    exact forall_mem_cons.2 ⟨fun x hx => absurd hx not_mem_nil, hc⟩
  | .ok a :: cursor, h =>
    cases h
    obtain ⟨hcursor, hothers⟩ := forall_mem_cons.1 hc
    exact forall_mem_cons.2 ⟨forall_mem_cons.2 ⟨⟨a, rfl⟩, hcursor⟩, hothers⟩

theorem openInputs_clean {n : ℕ} {streams : List (List (Except ε α))} {heap : List (Input ε α)}
    (h : openInputs n streams = .ok heap) (hc : CleanInputs heap) : ∀ s ∈ streams, Clean s := by
  induction streams generalizing n heap with
  | nil => exact fun s hs => absurd hs not_mem_nil
  | cons s streams ih =>
    match s, h with
    | [], h =>
      exact forall_mem_cons.2 ⟨fun x hx => absurd hx not_mem_nil, ih h hc⟩
    | .ok a :: cursor, h =>
      obtain ⟨heap', h', rfl⟩ := openInputs_ok_cons h
      obtain ⟨hcursor, hc⟩ := forall_mem_cons.1 hc
      exact forall_mem_cons.2 ⟨forall_mem_cons.2 ⟨⟨a, rfl⟩, hcursor⟩, ih h' hc⟩

/-! ## Sorted streams -/

section Sorted

variable {K : Type*} [LinearOrder K] (key : α → K)

/-- Every stream is sorted by key. -/
def SortedInputs (heap : List (Input ε α)) : Prop :=
  ∀ i ∈ heap, (i.items.map key).Pairwise (· ≤ ·)

variable {key}

theorem openInputs_sorted {n : ℕ} {streams : List (List (Except ε α))} {heap : List (Input ε α)}
    (hs : ∀ s ∈ streams, ((oks s).map key).Pairwise (· ≤ ·)) (h : openInputs n streams = .ok heap) :
    SortedInputs key heap := by
  induction streams generalizing n heap with
  | nil =>
    cases h
    exact fun i hi => absurd hi not_mem_nil
  | cons s streams ih =>
    have hs' := fun s hs' => hs s (mem_cons_of_mem _ hs')
    match s, h, hs with
    | [], h, _ => exact ih hs' h
    | .ok a :: cursor, h, hs =>
      obtain ⟨heap', h', rfl⟩ := openInputs_ok_cons h
      intro i hi
      rcases mem_cons.1 hi with rfl | hi
      · exact hs _ mem_cons_self
      · exact ih hs' h' i hi

theorem advance_sorted {i : Input ε α} {others heap : List (Input ε α)}
    (hs : SortedInputs key (i :: others)) (h : advance i others = .ok heap) :
    SortedInputs key heap := by
  obtain ⟨idx, head, cursor⟩ := i
  have hi := hs _ mem_cons_self
  have ho : SortedInputs key others := fun j hj => hs j (mem_cons_of_mem _ hj)
  match cursor, h, hi with
  | [], h, _ =>
    cases h
    exact ho
  | .ok a :: cursor, h, hi =>
    cases h
    intro j hj
    rcases mem_cons.1 hj with rfl | hj
    · simp only [Input.items, oks_ok, map_cons, pairwise_cons] at hi ⊢
      exact hi.2
    · exact ho j hj

/-- The least stream head has the least key of all the items left. -/
theorem key_le_of_popMin {le : Input ε α → Input ε α → Bool}
    (hkey : ∀ i j, le i j → key i.head ≤ key j.head)
    (htotal : ∀ i j, le i j ∨ le j i) (htrans : ∀ i j k, le i j → le j k → le i k)
    {heap others : List (Input ε α)} {i : Input ε α} (hs : SortedInputs key heap)
    (h : popMin le heap = some (i, others)) : ∀ a ∈ remaining heap, key i.head ≤ key a := by
  intro a ha
  obtain ⟨j, hj, ha⟩ := mem_flatMap.1 ha
  have hij : key i.head ≤ key j.head := by
    rcases mem_cons.1 ((popMin_perm h).mem_iff.1 hj) with rfl | hj'
    · exact le_rfl
    · exact hkey _ _ (popMin_le htotal htrans h j hj')
  rcases mem_cons.1 ha with rfl | ha
  · exact hij
  · have := hs j hj
    simp only [Input.items, map_cons, pairwise_cons] at this
    exact hij.trans (this.1 _ (mem_map_of_mem ha))

end Sorted

end KWayMerge
