import Midge.Compaction.LayoutSpec
import Midge.Compaction.Strategy
import Midge.Sst

/-!
# The SST catalog of a read

A read does not open every SST of its family. The catalog keeps L0 from the
newest to the oldest file, and the files of a deeper level with complete bounds
in key order, to be searched. Files without complete bounds go to a fallback
that is always read, and so do all the files of a level that turns out to
overlap (`buildLevel`).

A candidate list leaves out only files that cannot hold the key (or a key of the
range): `pointCandidates_eq`, `mem_orderedRange_or`. The binary search in a level is
sound because files in key order without overlap are partitioned by any key
(`Chained`).
-/

namespace Midge

open List

open GrandparentOverlap (completeBounds)

/-! ## The catalog -/

/-- The files of a level below L0. -/
structure LevelReadView where
  /-- Files with complete bounds, in key order, none overlapping the next. -/
  ordered : List FileMeta
  fallback : List FileMeta
  deriving DecidableEq, Repr

/-- The SST catalog of a family. -/
structure SstReadView where
  l0 : List FileMeta
  l0Runs : List (List FileMeta)
  levels : List (ℕ × LevelReadView)
  deriving DecidableEq, Repr

/-- Whether the bounds of a file can be relied on. -/
def hasCompleteBounds (file : FileMeta) : Bool := (completeBounds file).isSome

/-- The order of L0: by the sequence number of the SST, its largest sequence and
    its name. -/
def l0Order (file : FileMeta) : ℕ ×ₗ WithBot ℕ ×ₗ String :=
  toLex (file.sstSeq, toLex (file.largestSeq, file.name))

/-- Index a level, unless its files overlap. -/
def buildLevel (files : List FileMeta) : LevelReadView :=
  let ordered := (files.filter hasCompleteBounds).insertionSort
    fun left right => targetOrder left ≤ targetOrder right
  let fallback := files.filter fun file => !hasCompleteBounds file
  if (repairComponents ordered).isEmpty then ⟨ordered, fallback⟩
  else ⟨[], (fallback ++ ordered).insertionSort fun left right => left.name ≤ right.name⟩

/-- The files of a run, by their smallest key. -/
abbrev L0Run := List (Key × FileMeta)

/-- Insert a file into a run. -/
def insertRun (smallest : Key) (file : FileMeta) : L0Run → L0Run
  | [] => [(smallest, file)]
  | (start, other) :: run =>
    match cmp smallest start with
    | .lt => (smallest, file) :: (start, other) :: run
    | .eq => (smallest, file) :: run
    | .gt => (start, other) :: insertRun smallest file run

/-- Whether the bounds touch a file of the run. -/
def runOverlaps (run : L0Run) (smallest largest : Key) : Bool :=
  ((run.filter fun e => e.1 ≤ smallest).getLast?.any fun e => e.2.largestKey.any (smallest ≤ ·)) ||
    (run.find? fun e => smallest ≤ e.1).any fun e => e.1 ≤ largest

/-- Split L0 into runs of consecutive files that do not touch each other. -/
def l0RunsFrom : List FileMeta → L0Run → List (List FileMeta)
  | [], run => if run = [] then [] else [run.map Prod.snd]
  | file :: files, run =>
    match completeBounds file with
    | none =>
      (if run = [] then [] else [run.map Prod.snd]) ++ [file] :: l0RunsFrom files []
    | some (smallest, largest) =>
      if runOverlaps run smallest largest then
        run.map Prod.snd :: l0RunsFrom files [(smallest, file)]
      else l0RunsFrom files (insertRun smallest file run)

/-- Split L0, from the newest to the oldest file, into runs. -/
def buildL0Runs (files : List FileMeta) : List (List FileMeta) := l0RunsFrom files []

namespace SstReadView

/-- The levels below L0 that have files, in order. -/
def levelNumbers (files : List FileMeta) : List ℕ :=
  ((files.map FileMeta.level).filter (0 < ·)).dedup.insertionSort (· ≤ ·)

/-- The catalog of the files of a family. -/
def fromShared (files : List FileMeta) : SstReadView :=
  let l0 := (files.filter (·.level = 0)).insertionSort fun left right =>
    l0Order right ≤ l0Order left
  { l0
    l0Runs := buildL0Runs l0
    levels := (levelNumbers files).map fun level =>
      (level, buildLevel (files.filter (·.level = level))) }

/-- The catalog of a family. -/
def new (cfId : ℕ) (files : List FileMeta) : SstReadView :=
  fromShared (files.filter (·.cfId = cfId))

/-! ## Candidates -/

/-- Whether a file of L0 may hold the key. -/
def mayHold (key : Key) (file : FileMeta) : Bool :=
  if !file.keyBoundsComplete then true
  else
    match file.smallestKey, file.largestKey with
    | some smallest, some largest =>
      if largest < smallest then true else decide (smallest ≤ key) && decide (key ≤ largest)
    | _, _ => true

/-- The files of an indexed level that may hold the key. -/
def orderedCandidates (ordered : List FileMeta) (key : Key) : List FileMeta :=
  let first := partitionPoint (fun file => file.largestKey.any (· < key)) ordered
  ((ordered.drop first).takeWhile fun file => file.smallestKey.any (· ≤ key)).filter
    fun file => file.largestKey.any (key ≤ ·)

/-- The SSTs that may hold the key: those of L0 from the newest, then level by
    level. -/
def pointCandidates (view : SstReadView) (key : Key) : List FileMeta :=
  view.l0.filter (mayHold key) ++
    view.levels.flatMap fun level =>
      orderedCandidates level.2.ordered key ++ level.2.fallback

/-- The files in key order that may hold keys of `[start, stop)`. -/
def orderedRange (start stop : Option Key) (files : List FileMeta) : List FileMeta :=
  let first := start.elim 0 fun start =>
    partitionPoint (fun file => file.largestKey.any (· < start)) files
  let last := stop.elim files.length fun stop =>
    partitionPoint (fun file => file.smallestKey.any (· < stop)) files
  if first < last then (files.take last).drop first else []

/-- The SSTs that may hold keys of a range: the runs of L0, and the levels. -/
structure RangeCandidates where
  l0 : List (List FileMeta)
  levels : List LevelReadView
  deriving DecidableEq, Repr

/-- Whether the only file of a run has no complete bounds. -/
def uncertainRun : List FileMeta → Bool
  | [file] => !hasCompleteBounds file
  | _ => false

/-- The SSTs that may hold keys of `[start, stop)`. -/
def rangeCandidates (view : SstReadView) (start stop : Option Key) : RangeCandidates where
  l0 := (view.l0Runs.map fun run =>
    if uncertainRun run then run else orderedRange start stop run).filter (· ≠ [])
  levels := (view.levels.map fun level =>
    (⟨orderedRange start stop level.2.ordered, level.2.fallback⟩ : LevelReadView)).filter
      fun level => decide (level.ordered ≠ []) || decide (level.fallback ≠ [])

/-- All the files of the catalog, in the order of the candidates. -/
def files (view : SstReadView) : List FileMeta :=
  view.l0 ++ view.levels.flatMap fun level => level.2.ordered ++ level.2.fallback

end SstReadView

/-! ## Indexed levels -/

variable {file : FileMeta}

section Level

variable {files : List FileMeta}

theorem hasCompleteBounds_iff : hasCompleteBounds file ↔
    ∃ lower upper, completeBounds file = some (lower, upper) := by
  rw [hasCompleteBounds, Option.isSome_iff_exists]
  exact ⟨fun ⟨⟨a, b⟩, h⟩ => ⟨a, b, h⟩, fun ⟨a, b, h⟩ => ⟨(a, b), h⟩⟩

/-- The files of an indexed level have complete bounds. -/
theorem complete_of_mem_ordered {file : FileMeta} (h : file ∈ (buildLevel files).ordered) :
    hasCompleteBounds file := by
  rw [buildLevel] at h
  split_ifs at h
  · rw [mem_insertionSort] at h
    exact (mem_filter.1 h).2
  · simp at h

/-- An indexed level is in the order of the bounds of its files. -/
theorem pairwise_targetOrder_ordered :
    (buildLevel files).ordered.Pairwise fun f g => targetOrder f ≤ targetOrder g := by
  have : Std.Total fun l r : FileMeta => targetOrder l ≤ targetOrder r := ⟨fun a b => le_total _ _⟩
  have : IsTrans FileMeta fun l r => targetOrder l ≤ targetOrder r :=
    ⟨fun _ _ _ h h' => h.trans h'⟩
  rw [buildLevel]
  split_ifs
  · exact pairwise_insertionSort _ _
  · exact .nil

/-- Of two files in the order of their bounds, the bounds are in order. -/
theorem bounds_of_targetOrder_le {f g : FileMeta} {a b a' b' : Key}
    (h : targetOrder f ≤ targetOrder g)
    (hf : completeBounds f = some (a, b))
    (hg : completeBounds g = some (a', b')) : a ≤ a' ∧ (a = a' → b ≤ b') := by
  obtain ⟨-, hfs, hfl, -⟩ := le_of_completeBounds hf
  obtain ⟨-, hgs, hgl, -⟩ := le_of_completeBounds hg
  simp only [targetOrder, hfs, hfl, hgs, hgl, Prod.Lex.le_iff, ofLex_toLex] at h
  rcases h with h | ⟨h, h'⟩
  · have hlt : a < a' := WithBot.coe_lt_coe.1 h
    exact ⟨hlt.le, fun heq => absurd heq hlt.ne⟩
  · have heq : a = a' := WithBot.coe_inj.1 h
    refine ⟨heq.le, fun _ => ?_⟩
    rcases h' with h' | ⟨h', -⟩
    exacts [(WithBot.coe_lt_coe.1 h').le, (WithBot.coe_inj.1 h').le]

/-- Each file ends at or before the start of the next one. -/
def Chained (files : List FileMeta) : Prop :=
  files.Pairwise fun f g => ∀ a b a' b', completeBounds f = some (a, b) →
    completeBounds g = some (a', b') → b ≤ a'

/-- The files of an indexed level follow one another. -/
theorem chained_ordered : Chained (buildLevel files).ordered := by
  have horder := @pairwise_targetOrder_ordered files
  rw [buildLevel] at horder ⊢
  split_ifs at horder ⊢ with hrepair
  · refine (horder.and (pairwise_of_repairComponents_eq_nil (isEmpty_iff.1 hrepair))).imp ?_
    rintro f g ⟨hle, hdisjoint⟩ a b a' b' hf hg
    obtain ⟨hstart, hstop⟩ := bounds_of_targetOrder_le hle hf hg
    rcases hdisjoint a b a' b' hf hg with h | h
    · exact h
    · -- Both files are the same single key.
      have hle' := (le_of_completeBounds hg).2.2.2
      have heq : a = a' := le_antisymm hstart (hle'.trans h)
      exact (hstop heq).trans (h.trans heq.le)
  · exact .nil

end Level

/-! ## Candidates for a key -/

theorem filter_dropWhile {α : Type*} {p r : α → Bool} {l : List α} (h : ∀ a ∈ l, r a → ¬ p a) :
    (l.dropWhile p).filter r = l.filter r := by
  induction l with
  | nil => rfl
  | cons a l ih =>
    by_cases ha : p a
    · rw [dropWhile_cons_of_pos ha, ih fun b hb => h b (mem_cons_of_mem _ hb),
        filter_cons_of_neg fun hr => h a mem_cons_self hr ha]
    · rw [dropWhile_cons_of_neg ha]

namespace SstReadView

variable {files : List FileMeta} {key : Key}

theorem mayHold_iff {lower upper : Key}
    (h : completeBounds file = some (lower, upper)) :
    mayHold key file ↔ lower ≤ key ∧ key ≤ upper := by
  obtain ⟨hc, hs, hl, hle⟩ := le_of_completeBounds h
  simp [mayHold, hc, hs, hl, not_lt.2 hle]

/-- A file that is left out has complete bounds, and the key is out of them. -/
theorem of_not_mayHold (h : mayHold key file = false) :
    ∃ lower upper, completeBounds file = some (lower, upper) ∧
      ¬ (lower ≤ key ∧ key ≤ upper) := by
  have hcomplete : hasCompleteBounds file := by
    rw [mayHold] at h
    split_ifs at h with hc
    have hc : file.keyBoundsComplete = true := by simpa using hc
    rw [hasCompleteBounds, completeBounds, hc]
    revert h
    cases file.smallestKey with
    | none => simp
    | some smallest =>
      cases file.largestKey with
      | none => simp
      | some largest =>
        by_cases hlt : largest < smallest
        · simp [hlt]
        · simp [not_lt.1 hlt]
  obtain ⟨lower, upper, hb⟩ := hasCompleteBounds_iff.1 hcomplete
  refine ⟨lower, upper, hb, fun hk => ?_⟩
  rw [(mayHold_iff hb).2 hk] at h
  cases h

/-- The search in an indexed level finds the files that may hold the key. -/
theorem orderedCandidates_eq :
    orderedCandidates (buildLevel files).ordered key =
      (buildLevel files).ordered.filter (mayHold key) := by
  have hcomplete := fun f => @complete_of_mem_ordered files f
  have hsmallest := (@pairwise_targetOrder_ordered files)
  generalize (buildLevel files).ordered = ordered at *
  have hdown : (ordered.dropWhile fun file => file.largestKey.any (· < key)).Pairwise
      fun f g => g.smallestKey.any (· ≤ key) → f.smallestKey.any (· ≤ key) := by
    have hsub := dropWhile_sublist (fun file : FileMeta => file.largestKey.any (· < key))
      (l := ordered)
    refine List.Pairwise.imp_of_mem ?_ (hsmallest.sublist hsub)
    intro f g hf hg hle h
    obtain ⟨a, b, hfb⟩ := hasCompleteBounds_iff.1 (hcomplete f (hsub.mem hf))
    obtain ⟨a', b', hgb⟩ := hasCompleteBounds_iff.1 (hcomplete g (hsub.mem hg))
    obtain ⟨-, hfs, -, -⟩ := le_of_completeBounds hfb
    obtain ⟨-, hgs, -, -⟩ := le_of_completeBounds hgb
    simp only [hfs, hgs, Option.any_some, decide_eq_true_eq] at h ⊢
    exact (bounds_of_targetOrder_le hle hfb hgb).1.trans h
  simp only [orderedCandidates, drop_partitionPoint]
  rw [takeWhile_eq_filter hdown, filter_filter, filter_dropWhile]
  · refine filter_congr fun f hf => ?_
    obtain ⟨a, b, hb⟩ := hasCompleteBounds_iff.1 (hcomplete f hf)
    obtain ⟨-, hs, hl, -⟩ := le_of_completeBounds hb
    rw [Bool.eq_iff_iff, mayHold_iff hb]
    simp [hs, hl, and_comm]
  · intro f hf hr hp
    obtain ⟨a, b, hb⟩ := hasCompleteBounds_iff.1 (hcomplete f hf)
    obtain ⟨-, hs, hl, -⟩ := le_of_completeBounds hb
    simp only [hs, hl, Option.any_some, Bool.and_eq_true, decide_eq_true_eq] at hr hp
    exact absurd hp hr.1.not_gt

theorem mem_levelNumbers {level : ℕ} :
    level ∈ levelNumbers files ↔ 0 < level ∧ ∃ file ∈ files, file.level = level := by
  simp [levelNumbers, and_comm]

theorem pairwise_levelNumbers : (levelNumbers files).Pairwise (· < ·) := by
  have hnodup : (levelNumbers files).Nodup :=
    ((perm_insertionSort _ _).nodup_iff).2 (nodup_dedup _)
  have hsorted : (levelNumbers files).Pairwise (· ≤ ·) := pairwise_insertionSort _ _
  exact (hsorted.and hnodup).imp fun h => lt_of_le_of_ne h.1 h.2

theorem mem_buildLevel :
    file ∈ (buildLevel files).ordered ++ (buildLevel files).fallback ↔ file ∈ files := by
  have hsplit : file ∈ files ↔ (file ∈ files ∧ hasCompleteBounds file = true) ∨
      (file ∈ files ∧ hasCompleteBounds file = false) := by
    cases hasCompleteBounds file <;> simp
  rw [buildLevel, hsplit]
  split_ifs <;> simp [or_comm]

/-- The catalog has all the files. -/
theorem mem_files_fromShared : file ∈ (fromShared files).files ↔ file ∈ files := by
  simp only [SstReadView.files, fromShared, mem_append, mem_insertionSort,
    mem_filter, mem_flatMap, mem_map]
  constructor
  · rintro (⟨h, -⟩ | ⟨_, ⟨level, -, rfl⟩, h⟩)
    · exact h
    · exact (mem_filter.1 (mem_buildLevel.1 (mem_append.2 h))).1
  · intro h
    rcases Nat.eq_zero_or_pos file.level with hzero | hpos
    · exact .inl ⟨h, by simpa using hzero⟩
    · refine .inr ⟨_, ⟨file.level, mem_levelNumbers.2 ⟨hpos, file, h, rfl⟩, rfl⟩, ?_⟩
      exact mem_append.1 (mem_buildLevel.2 (mem_filter.2 ⟨h, by simp⟩))

/-- The files come level by level. -/
theorem pairwise_level_files :
    (fromShared files).files.Pairwise fun f g => f.level ≤ g.level := by
  have hmem : ∀ level, ∀ f ∈ (buildLevel (files.filter (·.level = level))).ordered ++
      (buildLevel (files.filter (·.level = level))).fallback, f.level = level := by
    intro level f hf
    simpa using (mem_filter.1 (mem_buildLevel.1 hf)).2
  refine pairwise_append.2 ⟨?_, ?_, ?_⟩
  · refine pairwise_of_forall_mem_list fun f hf g hg => ?_
    simp only [fromShared, mem_insertionSort, mem_filter, decide_eq_true_eq] at hf hg
    omega
  · refine pairwise_flatMap.2 ⟨fun e he => ?_, ?_⟩
    · obtain ⟨level, -, rfl⟩ := mem_map.1 he
      refine pairwise_of_forall_mem_list fun f hf g hg => ?_
      exact ((hmem level f hf).trans (hmem level g hg).symm).le
    · refine pairwise_map.2 (pairwise_levelNumbers.imp fun {l l'} hl f hf g hg => ?_)
      rw [hmem l f hf, hmem l' g hg]
      exact hl.le
  · intro f hf g hg
    simp only [fromShared, mem_insertionSort, mem_filter, decide_eq_true_eq] at hf
    omega

/-- Only files that cannot hold the key are left out: of L0, and of the indexed
    levels. -/
theorem pointCandidates_eq :
    (fromShared files).pointCandidates key =
      (fromShared files).l0.filter (mayHold key) ++
        (fromShared files).levels.flatMap fun level =>
          level.2.ordered.filter (mayHold key) ++ level.2.fallback := by
  rw [pointCandidates]
  congr 1
  simp only [fromShared, flatMap_map, orderedCandidates_eq]

end SstReadView

/-! ## Candidates for a range -/

/-- The bounds of the file leave no room for keys of `[start, stop)`. -/
def OutOfRange (start stop : Option Key) (file : FileMeta) : Prop :=
  (∃ s ∈ start, file.largestKey.any (· < s)) ∨ ∃ e ∈ stop, ¬ file.smallestKey.any (· < e)

section Range

variable {start stop : Option Key} {files : List FileMeta}

theorem Chained.smallest (hc : Chained files) (hcomplete : ∀ f ∈ files, hasCompleteBounds f)
    (key : Key) : files.Pairwise fun f g =>
      g.smallestKey.any (· < key) → f.smallestKey.any (· < key) := by
  refine List.Pairwise.imp_of_mem ?_ hc
  intro f g hf hg hbounds h
  obtain ⟨a, b, hfb⟩ := hasCompleteBounds_iff.1 (hcomplete f hf)
  obtain ⟨a', b', hgb⟩ := hasCompleteBounds_iff.1 (hcomplete g hg)
  obtain ⟨-, hfs, -, hle⟩ := le_of_completeBounds hfb
  obtain ⟨-, hgs, -, -⟩ := le_of_completeBounds hgb
  simp only [hfs, hgs, Option.any_some, decide_eq_true_eq] at h ⊢
  exact hle.trans_lt ((hbounds a b a' b' hfb hgb).trans_lt h)

theorem orderedRange_sublist : (SstReadView.orderedRange start stop files).Sublist files := by
  rw [SstReadView.orderedRange]
  split_ifs
  · exact (drop_sublist _ _).trans (take_sublist _ _)
  · exact nil_sublist _

/-- The two searches leave out only files out of the range. -/
theorem mem_orderedRange_or (hc : Chained files) (hcomplete : ∀ f ∈ files, hasCompleteBounds f)
    {file : FileMeta} (hf : file ∈ files) :
    file ∈ SstReadView.orderedRange start stop files ∨ OutOfRange start stop file := by
  rw [SstReadView.orderedRange]
  generalize hfirst : (start.elim 0 fun start =>
    partitionPoint (fun file => file.largestKey.any (· < start)) files) = first
  generalize hlast : (stop.elim files.length fun stop =>
    partitionPoint (fun file => file.smallestKey.any (· < stop)) files) = last
  -- Before `first` are the files that end before the range, from `last` on those
  -- that start after it.
  have hbefore : file ∈ files.take first → OutOfRange start stop file := by
    intro h
    cases start with
    | none => simp [← hfirst] at h
    | some s =>
      rw [← hfirst, Option.elim_some, take_partitionPoint] at h
      exact .inl ⟨s, rfl, by simpa using mem_takeWhile_imp h⟩
  have hafter : file ∈ files.drop last → OutOfRange start stop file := by
    intro h
    cases stop with
    | none => simp [← hlast] at h
    | some e =>
      rw [← hlast, Option.elim_some, drop_partitionPoint] at h
      have hnot := not_of_mem_dropWhile (hc.smallest hcomplete e) h
      exact .inr ⟨e, rfl, hnot⟩
  obtain ⟨i, hi, rfl⟩ := mem_iff_getElem.1 hf
  rcases Nat.lt_or_ge i first with hlt | hge
  · exact .inr (hbefore (mem_take_iff_getElem.2 ⟨i, by omega, rfl⟩))
  · rcases Nat.lt_or_ge i last with hlt | hge'
    · rw [if_pos (by omega)]
      left
      rw [mem_drop_iff_getElem]
      exact ⟨i - first, by simp; omega, by simp [Nat.add_sub_cancel' hge]⟩
    · exact .inr (hafter (mem_drop_iff_getElem.2 ⟨i - last, by omega,
        by simp [Nat.add_sub_cancel' hge']⟩))

end Range

/-! ## Runs of L0 -/

/-- A run under construction: the files by their start, none touching another. -/
structure RunOk (run : L0Run) : Prop where
  bounds : ∀ e ∈ run, ∃ b, completeBounds e.2 = some (e.1, b)
  apart : run.Pairwise fun e e' => ∀ b, completeBounds e.2 = some (e.1, b) →
    b < e'.1

section Runs

variable {run : L0Run} {smallest largest : Key} {file : FileMeta}

/-- A file that touches no file of the run is before or after each of them. -/
theorem apart_of_not_overlaps (hrun : RunOk run) (h : runOverlaps run smallest largest = false) :
    ∀ e ∈ run, ∀ b, completeBounds e.2 = some (e.1, b) →
      (e.1 ≤ smallest → b < smallest) ∧ (smallest ≤ e.1 → largest < e.1) := by
  rw [runOverlaps, Bool.or_eq_false_iff] at h
  obtain ⟨hbefore, hafter⟩ := h
  intro e he b hb
  constructor
  · -- The last file that starts before the new one ends before it.
    intro hle
    have hmem : e ∈ run.filter fun e => e.1 ≤ smallest := mem_filter.2 ⟨he, by simpa using hle⟩
    obtain ⟨init, last, hsplit⟩ := eq_nil_or_concat (run.filter fun e => e.1 ≤ smallest)
      |>.resolve_left (ne_nil_of_mem hmem)
    rw [concat_eq_append] at hsplit
    have hlast : last ∈ run.filter fun e => e.1 ≤ smallest := by rw [hsplit]; simp
    rw [hsplit, getLast?_concat, Option.any_some] at hbefore
    obtain ⟨hlastrun, hlastle⟩ := mem_filter.1 hlast
    obtain ⟨bl, hbl⟩ := hrun.bounds last hlastrun
    obtain ⟨-, -, hl, -⟩ := le_of_completeBounds hbl
    simp only [hl, Option.any_some, decide_eq_false_iff_not, not_le] at hbefore
    have hpair := hrun.apart.sublist (filter_sublist (p := fun e => e.1 ≤ smallest))
    rw [hsplit, pairwise_append] at hpair
    rw [hsplit, mem_append, mem_singleton] at hmem
    rcases hmem with hmem | rfl
    · exact (hpair.2.2 e hmem last (by simp) b hb).trans_le (by simpa using hlastle)
    · rw [hbl] at hb
      cases hb
      exact hbefore
  · -- The first file that starts after the new one starts after its end.
    intro hle
    obtain ⟨first, hfirst⟩ : ∃ first, (run.find? fun e => smallest ≤ e.1) = some first :=
      Option.isSome_iff_exists.1 (find?_isSome.2 ⟨e, he, by simpa using hle⟩)
    rw [hfirst, Option.any_some, decide_eq_false_iff_not, not_le] at hafter
    obtain ⟨hstart, before, after, hsplit, hno⟩ := find?_eq_some_iff_append.1 hfirst
    have hfirstrun : first ∈ run := by rw [hsplit]; simp
    obtain ⟨bf, hbf⟩ := hrun.bounds first hfirstrun
    have hpair := hrun.apart
    rw [hsplit, pairwise_append, pairwise_cons] at hpair
    rw [hsplit, mem_append, mem_cons] at he
    rcases he with he | rfl | he
    · exact absurd hle (by simpa using hno e he)
    · exact hafter
    · exact hafter.trans ((le_of_completeBounds hbf).2.2.2.trans_lt (hpair.2.1.1 e he bf hbf))

theorem mem_insertRun (h : ∀ e ∈ run, e.1 ≠ smallest) {e : Key × FileMeta} :
    e ∈ insertRun smallest file run ↔ e = (smallest, file) ∨ e ∈ run := by
  induction run with
  | nil => simp [insertRun]
  | cons first run ih =>
    rw [insertRun]
    split
    next => simp
    next heq => exact absurd ((cmp_eq_eq_iff _ _).1 heq).symm (h first mem_cons_self)
    next =>
      rw [mem_cons, ih fun e he => h e (mem_cons_of_mem _ he), mem_cons]
      exact or_left_comm

theorem RunOk.insertRun (hrun : RunOk run)
    (hfile : completeBounds file = some (smallest, largest))
    (hapart : ∀ e ∈ run, ∀ b, completeBounds e.2 = some (e.1, b) →
      (e.1 ≤ smallest → b < smallest) ∧ (smallest ≤ e.1 → largest < e.1)) :
    RunOk (insertRun smallest file run) ∧ ∀ e, e ∈ insertRun smallest file run ↔
      e = (smallest, file) ∨ e ∈ run := by
  have hne : ∀ e ∈ run, e.1 ≠ smallest := by
    intro e he heq
    obtain ⟨b, hb⟩ := hrun.bounds e he
    have hlt := (hapart e he b hb).1 heq.le
    exact absurd (heq ▸ (le_of_completeBounds hb).2.2.2) hlt.not_ge
  refine ⟨⟨fun e he => ?_, ?_⟩, fun e => mem_insertRun hne⟩
  · rcases (mem_insertRun hne).1 he with rfl | he
    exacts [⟨largest, hfile⟩, hrun.bounds e he]
  · have hpair := hrun.apart
    have hbounds := hrun.bounds
    clear hrun
    induction run with
    | nil => exact pairwise_singleton _ _
    | cons first run ih =>
      have hne' := fun e he => hne e (mem_cons_of_mem first he)
      rw [Midge.insertRun]
      rw [pairwise_cons] at hpair
      split
      next hlt =>
        have hlt := (cmp_eq_lt_iff _ _).1 hlt
        obtain ⟨bf, hbf⟩ := hbounds first mem_cons_self
        have hlargest := (hapart first mem_cons_self bf hbf).2 hlt.le
        refine pairwise_cons.2 ⟨fun e he b hb => ?_, pairwise_cons.2 hpair⟩
        rw [hfile] at hb
        cases hb
        rcases mem_cons.1 he with rfl | he
        · exact hlargest
        · exact hlargest.trans
            ((le_of_completeBounds hbf).2.2.2.trans_lt (hpair.1 e he bf hbf))
      next heq => exact absurd ((cmp_eq_eq_iff _ _).1 heq).symm (hne first mem_cons_self)
      next hgt =>
        have hgt := (cmp_eq_gt_iff _ _).1 hgt
        refine pairwise_cons.2 ⟨fun e he b hb => ?_,
          ih (fun e he => hapart e (mem_cons_of_mem _ he)) hne' hpair.2
            fun e he => hbounds e (mem_cons_of_mem _ he)⟩
        rcases (mem_insertRun hne').1 he with rfl | he
        exacts [(hapart first mem_cons_self b hb).1 hgt.le, hpair.1 e he b hb]

/-- A run of L0: a file without complete bounds, or files in key order. -/
def GoodRun (run : List FileMeta) : Prop :=
  (∃ file, run = [file] ∧ hasCompleteBounds file = false) ∨
    (run ≠ [] ∧ (∀ f ∈ run, hasCompleteBounds f) ∧ Chained run)

/-- The same, where moreover no file of the run touches another. -/
def SeparateRun (run : List FileMeta) : Prop :=
  (∃ file, run = [file] ∧ hasCompleteBounds file = false) ∨
    (run ≠ [] ∧ (∀ f ∈ run, hasCompleteBounds f) ∧ run.Pairwise fun f g => ∀ a b a' b',
      completeBounds f = some (a, b) → completeBounds g = some (a', b') → b < a')

theorem SeparateRun.goodRun {run : List FileMeta} (h : SeparateRun run) : GoodRun run :=
  h.imp_right fun ⟨hne, hcomplete, hpair⟩ => ⟨hne, hcomplete,
    hpair.imp fun h a b a' b' hf hg => (h a b a' b' hf hg).le⟩

theorem RunOk.separate (hrun : RunOk run) (hne : run ≠ []) : SeparateRun (run.map Prod.snd) := by
  refine .inr ⟨by simpa using hne, fun f hf => ?_, pairwise_map.2 ?_⟩
  · obtain ⟨e, he, rfl⟩ := mem_map.1 hf
    obtain ⟨b, hb⟩ := hrun.bounds e he
    exact hasCompleteBounds_iff.2 ⟨e.1, b, hb⟩
  · refine List.Pairwise.imp_of_mem ?_ hrun.apart
    intro e e' he he' hlt a b a' b' hb hb'
    obtain ⟨c, hc⟩ := hrun.bounds e he
    obtain ⟨c', hc'⟩ := hrun.bounds e' he'
    rw [hc] at hb
    rw [hc'] at hb'
    cases hb
    cases hb'
    exact hlt _ hc

/-- A run is closed, if it has any file. -/
theorem closed_spec (hrun : RunOk run) :
    (∀ r ∈ (if run = [] then [] else [run.map Prod.snd]), SeparateRun r) ∧
      ∀ f, (∃ r ∈ (if run = [] then [] else [run.map Prod.snd]), f ∈ r) ↔
        f ∈ run.map Prod.snd := by
  split_ifs with hnil
  · simp [hnil]
  · simpa using hrun.separate hnil

theorem l0RunsFrom_spec {files : List FileMeta} (hrun : RunOk run) :
    (∀ r ∈ l0RunsFrom files run, SeparateRun r) ∧ ∀ f, (∃ r ∈ l0RunsFrom files run, f ∈ r) ↔
      f ∈ files ∨ f ∈ run.map Prod.snd := by
  induction files generalizing run with
  | nil =>
    obtain ⟨hgood, hmem⟩ := closed_spec hrun
    rw [l0RunsFrom]
    exact ⟨hgood, fun f => by rw [hmem]; simp⟩
  | cons file files ih =>
    rw [l0RunsFrom]
    split
    next hnone =>
      obtain ⟨hgood, hmem⟩ := closed_spec hrun
      obtain ⟨hgood', hmem'⟩ := @ih [] ⟨by simp, .nil⟩
      have hfile : SeparateRun [file] := .inl ⟨file, rfl, by simp [hasCompleteBounds, hnone]⟩
      refine ⟨fun r hr => ?_, fun f => ?_⟩
      · rcases mem_append.1 hr with hr | hr
        · exact hgood r hr
        · rcases mem_cons.1 hr with rfl | hr
          exacts [hfile, hgood' r hr]
      · simp only [mem_append, mem_cons, or_and_right, exists_or, exists_eq_left, hmem,
          hmem', map_nil, not_mem_nil, or_false]
        rw [or_comm]
    next smallest largest hbounds =>
      split_ifs with hoverlaps
      · have hne : run ≠ [] := by
          rintro rfl
          simp [runOverlaps] at hoverlaps
        obtain ⟨hgood', hmem'⟩ := @ih [(smallest, file)]
          ⟨by simpa using ⟨largest, hbounds⟩, pairwise_singleton _ _⟩
        refine ⟨fun r hr => ?_, fun f => ?_⟩
        · rcases mem_cons.1 hr with rfl | hr
          exacts [hrun.separate hne, hgood' r hr]
        · simp only [mem_cons, or_and_right, exists_or, exists_eq_left, hmem', map_cons,
            map_nil, not_mem_nil, or_false]
          rw [or_comm, or_comm (a := f ∈ files)]
      · obtain ⟨hok, hmem⟩ := hrun.insertRun hbounds
          (apart_of_not_overlaps hrun (by simpa using hoverlaps))
        obtain ⟨hgood', hmem'⟩ := ih hok
        refine ⟨hgood', fun f => ?_⟩
        rw [hmem']
        simp only [mem_map, hmem, mem_cons, or_and_right, exists_or, exists_eq_left]
        rw [or_left_comm, or_assoc, eq_comm]

/-- L0 is split into runs. -/
theorem buildL0Runs_spec (files : List FileMeta) :
    (∀ r ∈ buildL0Runs files, SeparateRun r) ∧ ∀ f, (∃ r ∈ buildL0Runs files, f ∈ r) ↔ f ∈ files := by
  have h := @l0RunsFrom_spec [] files ⟨by simp, .nil⟩
  simpa [buildL0Runs] using h

end Runs

/-! ## All candidates for a range -/

theorem uncertainRun_of_complete {run : List FileMeta} (h : ∀ f ∈ run, hasCompleteBounds f) :
    SstReadView.uncertainRun run = false := by
  cases run with
  | nil => rfl
  | cons file rest =>
    cases rest with
    | nil => simp [SstReadView.uncertainRun, h file]
    | cons file' rest => rfl

namespace SstReadView

/-- A file is a candidate, or out of the range. -/
theorem mem_rangeCandidates_or {files : List FileMeta} (start stop : Option Key)
    (hfile : file ∈ files) :
    (∃ run ∈ ((fromShared files).rangeCandidates start stop).l0, file ∈ run) ∨
      (∃ level ∈ ((fromShared files).rangeCandidates start stop).levels,
        file ∈ level.ordered ++ level.fallback) ∨
      hasCompleteBounds file ∧ OutOfRange start stop file := by
  have hfiles := mem_files_fromShared.2 hfile
  rw [SstReadView.files, mem_append, mem_flatMap] at hfiles
  rcases hfiles with hl0 | ⟨level, hlevel, hfiles⟩
  · obtain ⟨run, hrun, hfrun⟩ : ∃ run ∈ (fromShared files).l0Runs, file ∈ run :=
      ((buildL0Runs_spec _).2 file).2 hl0
    have htold : file ∈ (if uncertainRun run then run else orderedRange start stop run) →
        ∃ run ∈ ((fromShared files).rangeCandidates start stop).l0, file ∈ run := fun hmem =>
      ⟨_, mem_filter.2 ⟨mem_map_of_mem hrun, by simpa using ne_nil_of_mem hmem⟩, hmem⟩
    rcases ((buildL0Runs_spec _).1 run hrun).goodRun with
      ⟨file', rfl, hno⟩ | ⟨-, hcomplete, hchained⟩
    · exact .inl (htold (by simpa [uncertainRun, hno] using hfrun))
    · rcases @mem_orderedRange_or start stop run hchained hcomplete file hfrun with hmem | hrange
      · exact .inl (htold (by rwa [uncertainRun_of_complete hcomplete]))
      · exact .inr (.inr ⟨hcomplete file hfrun, hrange⟩)
  · have htold : file ∈ orderedRange start stop level.2.ordered ++ level.2.fallback →
        ∃ level ∈ ((fromShared files).rangeCandidates start stop).levels,
          file ∈ level.ordered ++ level.fallback := fun hmem =>
      ⟨⟨orderedRange start stop level.2.ordered, level.2.fallback⟩,
        mem_filter.2 ⟨mem_map_of_mem hlevel, by
          rcases mem_append.1 hmem with h | h <;> simp [ne_nil_of_mem h]⟩, hmem⟩
    obtain ⟨n, -, rfl⟩ := mem_map.1 hlevel
    rcases mem_append.1 hfiles with hordered | hfallback
    · rcases @mem_orderedRange_or start stop _ chained_ordered
        (fun f => complete_of_mem_ordered) file hordered with hmem | hrange
      · exact .inr (.inl (htold (mem_append_left _ hmem)))
      · exact .inr (.inr ⟨complete_of_mem_ordered hordered, hrange⟩)
    · exact .inr (.inl (htold (mem_append_right _ hfallback)))

end SstReadView

end Midge
