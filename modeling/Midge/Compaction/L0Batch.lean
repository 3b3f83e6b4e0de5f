import Midge.Compaction.StrategySpec

/-!
# The order of an L0 batch

The batch of an L0 compaction starts with the oldest file. Each further pick is the hottest of
the files whose older overlapping files have all been picked, the oldest of equally hot ones
(`LevelOrderedBatch`). So at every cut-off the batch is closed under older overlapping files, and
it has as many files as it may have: the oldest of the files that remain can always be picked
(`exists_levelOrderedBatch`).

Files are told apart by their positions in the list of candidates. Of two files with the same age
the one that comes first counts as the older one, as the sort by age is stable.
-/

namespace Midge

open List

/-! ## The greatest element -/

section MaxBy

variable {α β : Type*} [LinearOrder β] {key : α → β} {le : α → α → Bool}

/-- What is picked has the greatest key. -/
theorem le_of_maxBy (hle : ∀ a b, le a b = true ↔ key a ≤ key b) {l : List α} {a : α}
    (h : maxBy le l = some a) : ∀ b ∈ l, key b ≤ key a := by
  have hfold : ∀ (l : List α) (a : α), ∀ b ∈ a :: l,
      key b ≤ key (l.foldl (fun best b => if le best b then b else best) a) := by
    intro l
    induction l with
    | nil => simp
    | cons c l ih =>
      intro a b hb
      rw [foldl_cons]
      have hac : key a ≤ key (if le a c then c else a) ∧ key c ≤ key (if le a c then c else a) := by
        split_ifs with hle'
        · exact ⟨(hle a c).1 hle', le_rfl⟩
        · exact ⟨le_rfl, (not_le.1 fun h => hle' ((hle a c).2 h)).le⟩
      have hhead := ih (if le a c then c else a) _ mem_cons_self
      rcases mem_cons.1 hb with rfl | hb
      · exact hac.1.trans hhead
      · rcases mem_cons.1 hb with rfl | hb
        · exact hac.2.trans hhead
        · exact ih _ b (mem_cons_of_mem _ hb)
  cases l with
  | nil => cases h
  | cons c l =>
    rw [maxBy, Option.some.injEq] at h
    exact h ▸ hfold l c

theorem maxBy_eq_none {l : List α} : maxBy le l = none ↔ l = [] := by
  cases l <;> simp [maxBy]

end MaxBy

/-- The hotter file is preferred, and of equally hot ones the older. -/
def heatKey (candidate : FileMeta × ℕ) : ℕ ×ₗ (ℕ ×ₗ String)ᵒᵈ :=
  toLex (candidate.2, OrderDual.toDual (fileAgeKey candidate.1))

theorem heatLe_iff (left right : (FileMeta × ℕ) × ℕ) :
    heatLe left right = true ↔ heatKey left.1 ≤ heatKey right.1 := by
  rw [heatLe, heatKey, heatKey, Prod.Lex.toLex_le_toLex]
  rcases lt_trichotomy left.1.2 right.1.2 with hlt | heq | hgt
  · simp [(cmp_eq_lt_iff _ _).2 hlt, hlt]
  · simp [heq]
  · simp [(cmp_eq_gt_iff _ _).2 hgt, hgt.not_gt, hgt.ne']

/-! ## Positions -/

/-- A candidate, with its position in the list. -/
abbrev L0Entry := (FileMeta × ℕ) × ℕ

namespace L0Entry

/-- The age of an entry: of files with the same age the first one is the older. -/
def age (entry : L0Entry) : (ℕ ×ₗ String) ×ₗ ℕ := toLex (fileAgeKey entry.1.1, entry.2)

def Overlaps (older entry : L0Entry) : Prop := l0KeyRangesOverlap older.1.1 entry.1.1 = true

/-- All the older entries that overlap it are among those picked. -/
def Ready (entries picked : List L0Entry) (entry : L0Entry) : Prop :=
  ∀ older ∈ entries, older.age < entry.age → older.Overlaps entry → older ∈ picked

end L0Entry

/-- Sorting by age keeps the order of the files with the same age. -/
theorem insertionSort_zipIdx (candidates : List (FileMeta × ℕ)) (k : ℕ) :
    ((candidates.zipIdx k).insertionSort fun a b : L0Entry => a.age ≤ b.age).map Prod.fst =
      candidates.insertionSort fun left right => fileAgeKey left.1 ≤ fileAgeKey right.1 := by
  induction candidates generalizing k with
  | nil => rfl
  | cons candidate candidates ih =>
    rw [zipIdx_cons, insertionSort_cons, insertionSort_cons, ← ih (k + 1)]
    set sorted := ((candidates.zipIdx (k + 1)).insertionSort fun a b : L0Entry => a.age ≤ b.age)
      with hsorted
    have hlater : ∀ entry ∈ sorted, k < entry.2 := by
      intro entry hentry
      obtain ⟨hle, -⟩ := mem_zipIdx ((mem_insertionSort _).1 hentry)
      omega
    clear_value sorted
    clear ih hsorted
    induction sorted with
    | nil => rfl
    | cons entry sorted ih =>
      have hiff : L0Entry.age (candidate, k) ≤ entry.age ↔
          fileAgeKey candidate.1 ≤ fileAgeKey entry.1.1 := by
        have hlt := hlater entry mem_cons_self
        rw [L0Entry.age, L0Entry.age, Prod.Lex.toLex_le_toLex]
        exact (or_congr_right (and_iff_left hlt.le)).trans le_iff_lt_or_eq.symm
      rw [orderedInsert_cons, map_cons, orderedInsert_cons]
      by_cases hle : fileAgeKey candidate.1 ≤ fileAgeKey entry.1.1
      · rw [if_pos (hiff.2 hle), if_pos hle]
        rfl
      · rw [if_neg (mt hiff.1 hle), if_neg hle, map_cons,
          ih fun entry hentry => hlater entry (mem_cons_of_mem _ hentry)]

/-! ## Picks -/

variable {entry pick : L0Entry} {index : ℕ}

section Picks

variable {entries : List L0Entry}

/-- The older entries come first. -/
theorem mem_take_of_age_lt (hsorted : entries.Pairwise fun a b => a.age < b.age) {older : L0Entry}
    (hentry : entries[index]? = some entry) (holder : older ∈ entries) (hlt : older.age < entry.age) :
    older.1 ∈ (entries.map Prod.fst).take index := by
  obtain ⟨position, hposition, rfl⟩ := mem_iff_getElem.1 holder
  obtain ⟨hindex, rfl⟩ := List.getElem?_eq_some_iff.1 hentry
  have hless : position < index := by
    by_contra hge
    rcases (not_lt.1 hge).eq_or_lt with rfl | hgt
    · exact lt_irrefl _ hlt
    · exact lt_asymm hlt (pairwise_iff_getElem.1 hsorted _ _ hindex hposition hgt)
  rw [← map_take]
  exact mem_map_of_mem (mem_take_iff_getElem.2 ⟨position, by omega, rfl⟩)

/-- An entry is admissible if all the older ones that overlap it are gone. -/
theorem mem_admissible (hsorted : entries.Pairwise fun a b => a.age < b.age)
    (hentry : entries[index]? = some entry) :
    (entry.1, index) ∈ admissible (entries.map Prod.fst) ↔ entry.Ready entries [] := by
  rw [admissible, mem_filter, mk_mem_zipIdx_iff_getElem?]
  simp only [getElem?_map, hentry, Option.map_some, true_and, all_eq_true,
    Bool.not_eq_true']
  constructor
  · intro hnone older holder hlt hoverlaps
    have := hnone older.1 (mem_take_of_age_lt hsorted hentry holder hlt)
    rw [L0Entry.Overlaps, this] at hoverlaps
    cases hoverlaps
  · intro hready older holder
    obtain ⟨position, hposition, rfl⟩ := mem_take_iff_getElem.1 holder
    obtain ⟨hindex, rfl⟩ := List.getElem?_eq_some_iff.1 hentry
    rw [length_map] at hposition
    have hage := pairwise_iff_getElem.1 hsorted position index (by omega) hindex (by omega)
    rw [getElem_map]
    by_contra hoverlaps
    rw [Bool.not_eq_false] at hoverlaps
    exact absurd (hready _ (getElem_mem _) hage hoverlaps) not_mem_nil

/-- What is ready once an entry has been picked. -/
theorem ready_cons_iff {rest before : List L0Entry} (hrest : ∀ e, e ∈ rest ↔ e ∈ entries ∧ e ≠ pick) :
    entry.Ready entries (pick :: before) ↔ entry.Ready rest before := by
  constructor
  · intro hready older holder hage hoverlaps
    obtain ⟨hmem, hne⟩ := (hrest older).1 holder
    exact (mem_cons.1 (hready older hmem hage hoverlaps)).resolve_left hne
  · intro hready older holder hage hoverlaps
    by_cases heq : older = pick
    · exact heq ▸ mem_cons_self
    · exact mem_cons_of_mem _ (hready older ((hrest older).2 ⟨holder, heq⟩) hage hoverlaps)

/-- The picks from the entries: each is ready, and the hottest of those that are. -/
structure GreedyPicks (entries : List L0Entry) (n : ℕ) (picks : List L0Entry) : Prop where
  count : picks.length = min n entries.length
  nodup : picks.Nodup
  subset : picks ⊆ entries
  ready : ∀ before pick after, picks = before ++ pick :: after → pick.Ready entries before
  hottest : ∀ before pick after, picks = before ++ pick :: after → ∀ entry ∈ entries,
    entry ∉ before → entry.Ready entries before → heatKey entry.1 ≤ heatKey pick.1

theorem nodup_of_age_lt (hsorted : entries.Pairwise fun a b => a.age < b.age) : entries.Nodup :=
  hsorted.imp fun hlt heq => hlt.ne (congrArg L0Entry.age heq)

theorem mem_eraseIdx_iff (hnodup : entries.Nodup) (hpick : entries[index]? = some pick)
    (entry : L0Entry) : entry ∈ entries.eraseIdx index ↔ entry ∈ entries ∧ entry ≠ pick := by
  obtain ⟨hindex, rfl⟩ := List.getElem?_eq_some_iff.1 hpick
  rw [← hnodup.erase_getElem, hnodup.mem_erase_iff, and_comm]

/-- As long as entries remain, one of them can be picked. -/
theorem exists_pick (hsorted : entries.Pairwise fun a b => a.age < b.age) (hne : entries ≠ []) :
    ∃ index pick, entries[index]? = some pick ∧
      maxBy heatLe (admissible (entries.map Prod.fst)) = some (pick.1, index) ∧
      pick.Ready entries [] ∧
      ∀ entry ∈ entries, entry.Ready entries [] → heatKey entry.1 ≤ heatKey pick.1 := by
  -- The oldest entry is ready.
  obtain ⟨oldest, rest, rfl⟩ := exists_cons_of_ne_nil hne
  have holdest : (oldest.1, 0) ∈ admissible ((oldest :: rest).map Prod.fst) := by
    refine (mem_admissible hsorted rfl).2 fun older holder hage _ => ?_
    rcases mem_cons.1 holder with rfl | holder
    · exact absurd hage (lt_irrefl _)
    · exact absurd hage (lt_asymm ((pairwise_cons.1 hsorted).1 older holder))
  cases hmax : maxBy heatLe (admissible ((oldest :: rest).map Prod.fst)) with
  | none =>
    rw [maxBy_eq_none.1 hmax] at holdest
    cases holdest
  | some picked =>
    obtain ⟨candidate, index⟩ := picked
    have hpicked := mem_of_maxBy hmax
    have hget := (of_mem_admissible hpicked).1
    rw [getElem?_map, Option.map_eq_some_iff] at hget
    obtain ⟨pick, hpick, rfl⟩ := hget
    refine ⟨index, pick, hpick, rfl, (mem_admissible hsorted hpick).1 hpicked, ?_⟩
    intro entry hentry hready
    obtain ⟨position, hposition⟩ := mem_iff_getElem?.1 hentry
    exact le_of_maxBy heatLe_iff hmax (entry.1, position)
      ((mem_admissible hsorted hposition).2 hready)

theorem exists_greedyPicks {n : ℕ} (hsorted : entries.Pairwise fun a b => a.age < b.age) :
    ∃ picks, pickL0Files n (entries.map Prod.fst) = picks.map (·.1.1) ∧
      GreedyPicks entries n picks := by
  induction n generalizing entries with
  | zero => exact ⟨[], rfl, by simp, .nil, by simp, by simp, by simp⟩
  | succ n ih =>
    by_cases hne : entries = []
    · subst hne
      exact ⟨[], rfl, by simp, .nil, by simp, by simp, by simp⟩
    obtain ⟨index, pick, hpick, hmax, hready, hhottest⟩ := exists_pick hsorted hne
    have hrest := mem_eraseIdx_iff (nodup_of_age_lt hsorted) hpick
    obtain ⟨picks, heq, hpicks⟩ := ih (hsorted.sublist (eraseIdx_sublist entries index))
    refine ⟨pick :: picks, ?_, ?_, ?_, ?_, ?_, ?_⟩
    · rw [pickL0Files, hmax]
      dsimp only
      rw [eraseIdx_map, heq]
      rfl
    · have hlt := (List.getElem?_eq_some_iff.1 hpick).1
      rw [length_cons, hpicks.count, length_eraseIdx_of_lt hlt]
      omega
    · refine nodup_cons.2 ⟨fun hmem => ?_, hpicks.nodup⟩
      exact ((hrest pick).1 (hpicks.subset hmem)).2 rfl
    · refine cons_subset.2 ⟨mem_of_getElem? hpick, fun entry hentry => ?_⟩
      exact ((hrest entry).1 (hpicks.subset hentry)).1
    · intro before pick' after hsplit
      rcases cons_eq_append_iff.1 hsplit with ⟨rfl, hcons⟩ | ⟨before, rfl, hrest'⟩
      · cases hcons
        exact hready
      · exact (ready_cons_iff hrest).2 (hpicks.ready before pick' after hrest')
    · intro before pick' after hsplit entry hentry hnot hentryReady
      rcases cons_eq_append_iff.1 hsplit with ⟨rfl, hcons⟩ | ⟨before, rfl, hrest'⟩
      · cases hcons
        exact hhottest entry hentry hentryReady
      · rw [mem_cons, not_or] at hnot
        exact hpicks.hottest before pick' after hrest' entry ((hrest entry).2 ⟨hentry, hnot.1⟩)
          hnot.2 ((ready_cons_iff hrest).1 hentryReady)

end Picks

/-! ## The batch -/

/-- A batch of at most `batchSize` of the candidates, in the order of the picks. -/
structure LevelOrderedBatch (candidates : List (FileMeta × ℕ)) (batchSize : ℕ)
    (picks : List L0Entry) : Prop where
  count : picks.length = min batchSize candidates.length
  nodup : picks.Nodup
  subset : picks ⊆ candidates.zipIdx
  oldest : ∀ first ∈ picks.head?, ∀ candidate ∈ candidates,
    fileAgeKey first.1.1 ≤ fileAgeKey candidate.1
  /-- Every pick comes after all the older files that overlap it. -/
  ready : ∀ before pick after, picks = before ++ pick :: after →
    pick.Ready candidates.zipIdx before
  hottest : ∀ before pick after, picks = before ++ pick :: after → before ≠ [] →
    ∀ entry : L0Entry, entry ∈ candidates.zipIdx → entry ∉ before →
      entry.Ready candidates.zipIdx before →
      entry.1.2 < pick.1.2 ∨
        entry.1.2 = pick.1.2 ∧ fileAgeKey pick.1.1 ≤ fileAgeKey entry.1.1

theorem pairwise_age_zipIdx (candidates : List (FileMeta × ℕ)) :
    (candidates.zipIdx.insertionSort fun a b : L0Entry => a.age ≤ b.age).Pairwise
      fun a b => a.age < b.age := by
  have : Std.Total fun a b : L0Entry => a.age ≤ b.age := ⟨fun _ _ => le_total _ _⟩
  have : IsTrans L0Entry fun a b => a.age ≤ b.age := ⟨fun _ _ _ => le_trans⟩
  have hnodup : ((candidates.zipIdx.insertionSort fun a b : L0Entry => a.age ≤ b.age).map
      Prod.snd).Nodup := by
    rw [((perm_insertionSort _ _).map _).nodup_iff, zipIdx_map_snd]
    exact nodup_range'
  refine List.Pairwise.imp₂ (fun a b hle hne => hle.lt_of_ne fun heq => hne ?_)
    (pairwise_insertionSort _ _) (pairwise_map.1 hnodup)
  exact congrArg (fun age => (ofLex age).2) heq

variable {candidates : List (FileMeta × ℕ)}

/-- The oldest file, and then the picks from the others. -/
theorem GreedyPicks.batch {oldest : L0Entry} {rest picks : List L0Entry} {n : ℕ}
    (hpicks : GreedyPicks rest n picks) (hperm : (oldest :: rest).Perm candidates.zipIdx)
    (hsorted : (oldest :: rest).Pairwise fun a b => a.age < b.age) :
    LevelOrderedBatch candidates (n + 1) (oldest :: picks) := by
  obtain ⟨hfirst, -⟩ := pairwise_cons.1 hsorted
  have holdest : oldest ∉ rest := fun hmem => lt_irrefl _ (hfirst oldest hmem)
  have hrest : ∀ e, e ∈ rest ↔ e ∈ candidates.zipIdx ∧ e ≠ oldest := by
    intro e
    rw [← hperm.mem_iff, mem_cons]
    constructor
    · exact fun hmem => ⟨.inr hmem, fun heq => holdest (heq ▸ hmem)⟩
    · exact fun ⟨hmem, hne⟩ => hmem.resolve_left hne
  refine ⟨?_, nodup_cons.2 ⟨fun hmem => holdest (hpicks.subset hmem), hpicks.nodup⟩, ?_, ?_,
    ?_, ?_⟩
  · have hlength := hperm.length_eq
    rw [length_cons, length_zipIdx] at hlength
    rw [length_cons, hpicks.count]
    omega
  · refine cons_subset.2 ⟨hperm.mem_iff.1 mem_cons_self, fun entry hentry => ?_⟩
    exact ((hrest entry).1 (hpicks.subset hentry)).1
  · rintro _ ⟨⟩ candidate hcandidate
    obtain ⟨position, hposition⟩ := mem_iff_getElem?.1 hcandidate
    have hmem := hperm.mem_iff.2 (mk_mem_zipIdx_iff_getElem?.2 hposition)
    rcases mem_cons.1 hmem with rfl | hmem
    · exact le_rfl
    · exact Prod.Lex.monotone_fst _ _ (hfirst _ hmem).le
  · intro before pick after hsplit
    rcases cons_eq_append_iff.1 hsplit with ⟨rfl, hcons⟩ | ⟨before, rfl, hsplit'⟩
    · cases hcons
      intro older holder hage
      rcases mem_cons.1 (hperm.mem_iff.2 holder) with rfl | hmem
      · exact absurd hage (lt_irrefl _)
      · exact absurd hage (lt_asymm (hfirst older hmem))
    · exact (ready_cons_iff hrest).2 (hpicks.ready before pick after hsplit')
  · intro before pick after hsplit hne entry hentry hnot hready
    rcases cons_eq_append_iff.1 hsplit with ⟨rfl, -⟩ | ⟨before, rfl, hsplit'⟩
    · exact absurd rfl hne
    · rw [mem_cons, not_or] at hnot
      have hheat := hpicks.hottest before pick after hsplit' entry
        ((hrest entry).2 ⟨hentry, hnot.1⟩) hnot.2 ((ready_cons_iff hrest).1 hready)
      exact Prod.Lex.toLex_le_toLex.1 hheat

/-- At every cut-off the batch is closed under older overlapping files. -/
theorem LevelOrderedBatch.closed {batchSize : ℕ} {picks : List L0Entry}
    (h : LevelOrderedBatch candidates batchSize picks) {cut : ℕ} (hpick : pick ∈ picks.take cut) :
    pick.Ready candidates.zipIdx (picks.take cut) := by
  obtain ⟨before, after, hsplit⟩ := append_of_mem hpick
  have hready := h.ready before pick (after ++ picks.drop cut) (by
    rw [← cons_append, ← append_assoc, ← hsplit, take_append_drop])
  intro older holder hage hoverlaps
  rw [hsplit]
  exact mem_append_left _ (hready older holder hage hoverlaps)

/-- A batch of L0 has as many files as it may have. It starts with the oldest file, has with every
    file the older ones that overlap it before it, and goes on with the hottest file that it
    can. -/
theorem exists_levelOrderedBatch (candidates : List (FileMeta × ℕ)) (batchSize : ℕ) :
    ∃ picks : List L0Entry,
      selectLevelOrderedL0Batch candidates batchSize = picks.map (·.1.1) ∧
        LevelOrderedBatch candidates batchSize picks ∧
          ∀ cut, ∀ pick ∈ picks.take cut, pick.Ready candidates.zipIdx (picks.take cut) := by
  have hsorted := pairwise_age_zipIdx candidates
  have hperm := perm_insertionSort (fun a b : L0Entry => a.age ≤ b.age) candidates.zipIdx
  have hage := insertionSort_zipIdx candidates 0
  cases hentries : candidates.zipIdx.insertionSort fun a b : L0Entry => a.age ≤ b.age with
  | nil =>
    rw [hentries] at hperm
    obtain rfl : candidates = [] := by simpa using hperm.symm.eq_nil
    exact ⟨[], by cases batchSize <;> rfl, ⟨by simp, .nil, by simp, by simp, by simp, by simp⟩,
      by simp⟩
  | cons oldest rest =>
    rw [hentries] at hsorted hperm hage
    cases batchSize with
    | zero => exact ⟨[], rfl, ⟨by simp, .nil, by simp, by simp, by simp, by simp⟩, by simp⟩
    | succ n =>
      obtain ⟨picks, heq, hpicks⟩ := exists_greedyPicks (n := n) (pairwise_cons.1 hsorted).2
      have hbatch := hpicks.batch hperm hsorted
      refine ⟨oldest :: picks, ?_, hbatch, fun cut pick hpick => hbatch.closed hpick⟩
      simp only [selectLevelOrderedL0Batch, ← hage, map_cons, heq]

end Midge
