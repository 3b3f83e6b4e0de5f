import Midge.Compaction.ExecuteSpec
import Midge.Compaction.StrategySpec
import Midge.Metadata.Moves
import Midge.Sst

/-!
# The age order of the levels

A point read stops at the first position that knows the key. That is right as
long as every shallower position holds newer versions and range tombstones of a
key than every deeper one (`LevelOrdered`), where the positions are the L0 files
from the newest to the oldest, then L1, L2 and so on.

The order is kept by all that changes the set of SSTs. A flush adds the newest
file. A compaction or a move puts data at a deeper level `L`; the argument is the
same for all of them (`Replaces.levelOrdered`): an SST that stays and shares a
key with one that goes is either shallower than it, or deeper than `L`, or both
are at `L`. A merge of a level below L0 needs one thing more than the order: if
two files of its source level share a key, it may take the newer one and leave
the older one above it. So there the files of the source level have to be
separate (`SeparateAt`), as all files are that a compaction has written.
-/

namespace Midge

open List SstContents

/-! ## The order -/

/-- The first file is at a shallower position than the second one. -/
def Shallower (a b : FileMeta) : Prop :=
  a.cfId = b.cfId ∧
    (a.level < b.level ∨ (a.level = 0 ∧ b.level = 0 ∧ fileAgeKey b < fileAgeKey a))

/-- What a shallower position holds of a key is newer. -/
def LevelOrdered (ssts : List Sst) : Prop :=
  ∀ s ∈ ssts, ∀ s' ∈ ssts, Shallower s.file s'.file → ∀ k a b,
    s.contents.HasSeqAt k a → s'.contents.HasSeqAt k b → b < a

/-- No two files of the level hold the same key. -/
def SeparateAt (ssts : List Sst) (cfId level : ℕ) : Prop :=
  ∀ s ∈ ssts, ∀ s' ∈ ssts, s.file.cfId = cfId → s'.file.cfId = cfId → s.file.level = level →
    s'.file.level = level → s.file.name ≠ s'.file.name → ∀ k, s.contents.Holds k →
      ¬ s'.contents.Holds k

/-- No two files of a level below L0 hold the same key. -/
def Separate (ssts : List Sst) : Prop := ∀ cfId level, 0 < level → SeparateAt ssts cfId level

/-- The manifest knows each file by its name, and is right about it. -/
structure Catalogued (ssts : List Sst) : Prop where
  names : ∀ s ∈ ssts, ∀ s' ∈ ssts, s.file.name = s'.file.name → s = s'
  bounded : ∀ s ∈ ssts, Bounded s.file s.contents
  sorted : ∀ s ∈ ssts, s.contents.KeySorted

/-- The manifest entries of the SSTs. -/
abbrev entries (ssts : List Sst) : List FileMeta := ssts.map Sst.file

theorem fileAgeKey_inj {a b : FileMeta} (h : fileAgeKey a = fileAgeKey b) : a.name = b.name :=
  (Prod.ext_iff.1 (toLex.injective h)).2

/-! ## Replacing files by deeper ones -/

/-- The `inputs` among the SSTs are replaced by `outputs` at the level. -/
structure Replaces (cfId level : ℕ) (inputs outputs : Sst → Prop) (ssts ssts' : List Sst) :
    Prop where
  positive : 0 < level
  family : ∀ s ∈ ssts, inputs s → s.file.cfId = cfId ∧ s.file.level ≤ level
  stays : ∀ s ∈ ssts, inputs s → ∀ r ∈ ssts, ¬ inputs r → r.file.cfId = cfId → ∀ k,
    s.contents.Holds k → r.contents.Holds k →
      (r.file.level < level ∧ Shallower r.file s.file) ∨ level < r.file.level ∨
        (r.file.level = level ∧ s.file.level = level)
  mem : ∀ s ∈ ssts', (s ∈ ssts ∧ ¬ inputs s) ∨ outputs s
  atLevel : ∀ o, outputs o → o.file.cfId = cfId ∧ o.file.level = level
  fromInputs : ∀ o, outputs o → ∀ k c, o.contents.HasSeqAt k c →
    ∃ s ∈ ssts, inputs s ∧ s.contents.HasSeqAt k c
  disjoint : ∀ o o', outputs o → outputs o' → o.file.name ≠ o'.file.name → ∀ k,
    o.contents.Holds k → ¬ o'.contents.Holds k

namespace Replaces

variable {cfId level : ℕ} {inputs outputs : Sst → Prop} {ssts ssts' : List Sst}

theorem levelOrdered (h : Replaces cfId level inputs outputs ssts ssts') (ho : LevelOrdered ssts) :
    LevelOrdered ssts' := by
  intro s hs s' hs' hshallow k a b ha hb
  have hpos := h.positive
  rcases h.mem s hs with ⟨hs, hsi⟩ | hs <;> rcases h.mem s' hs' with ⟨hs', hsi'⟩ | hs'
  · exact ho s hs s' hs' hshallow k a b ha hb
  · -- The SST that stays is shallower than the output, hence than the input.
    obtain ⟨hcf, hlevel⟩ := h.atLevel s' hs'
    obtain ⟨i, hi, hin, hb⟩ := h.fromInputs s' hs' k b hb
    obtain ⟨hcfs, hl⟩ := hshallow
    rcases h.stays i hi hin s hs hsi (hcfs.trans hcf) k (holds_iff.2 ⟨b, hb⟩)
      (holds_iff.2 ⟨a, ha⟩) with ⟨-, hsh⟩ | hdeep | ⟨hat, -⟩
    · exact ho s hs i hi hsh k a b ha hb
    · omega
    · omega
  · obtain ⟨hcf, hlevel⟩ := h.atLevel s hs
    obtain ⟨i, hi, hin, ha⟩ := h.fromInputs s hs k a ha
    obtain ⟨hcfi, hli⟩ := h.family i hi hin
    obtain ⟨hcfs, hl⟩ := hshallow
    exact ho i hi s' hs' ⟨by omega, .inl (by omega)⟩ k a b ha hb
  · have := (h.atLevel s hs).2
    have := (h.atLevel s' hs').2
    obtain ⟨-, hl⟩ := hshallow
    omega

theorem separate (h : Replaces cfId level inputs outputs ssts ssts')
    (hnames : ∀ s ∈ ssts, ∀ s' ∈ ssts, s.file.name = s'.file.name → s = s')
    (hsep : Separate ssts) : Separate ssts' := by
  -- An SST that stays at the level shares no key with an output.
  have hmixed : ∀ r ∈ ssts, ¬ inputs r → r.file.cfId = cfId → r.file.level = level →
      ∀ o, outputs o → ∀ k, o.contents.Holds k → ¬ r.contents.Holds k := by
    intro r hr hri hcf hl o ho k hk hk'
    obtain ⟨c, hc⟩ := holds_iff.1 hk
    obtain ⟨i, hi, hin, hc⟩ := h.fromInputs o ho k c hc
    have hik := holds_iff.2 ⟨c, hc⟩
    rcases h.stays i hi hin r hr hri hcf k hik hk' with ⟨hlt, -⟩ | hlt | ⟨-, hil⟩
    · omega
    · omega
    · refine hsep cfId level h.positive i hi r hr (h.family i hi hin).1 hcf hil hl ?_ k hik hk'
      intro hname
      exact hri (hnames i hi r hr hname ▸ hin)
  intro cf l hl s hs s' hs' hcf hcf' hsl hsl' hne k hk hk'
  rcases h.mem s hs with ⟨hs, hsi⟩ | hs <;> rcases h.mem s' hs' with ⟨hs', hsi'⟩ | hs'
  · exact hsep cf l hl s hs s' hs' hcf hcf' hsl hsl' hne k hk hk'
  · have := h.atLevel s' hs'
    exact hmixed s hs hsi (by omega) (by omega) s' hs' k hk' hk
  · have := h.atLevel s hs
    exact hmixed s' hs' hsi' (by omega) (by omega) s hs k hk hk'
  · exact h.disjoint s s' hs hs' hne k hk hk'

end Replaces

/-! ## What stays when a plan is executed -/

variable {s : Sst} {k : Key}

section Stays

theorem shareKey_of_holds {r : Sst} (hs : Bounded s.file s.contents)
    (hr : Bounded r.file r.contents) (hk : s.contents.Holds k) (hk' : r.contents.Holds k) :
    ShareKey s.file r.file k :=
  ⟨hs.of_holds hk, hr.of_holds hk'⟩

/-- Files that share a key overlap. -/
theorem l0KeyRangesOverlap_of_shareKey {f g : FileMeta} (h : ShareKey f g k) :
    l0KeyRangesOverlap f g := by
  obtain ⟨⟨a, b, ha, hb, hak, hkb⟩, a', b', ha', hb', hak', hkb'⟩ := h
  simp only [l0KeyRangesOverlap, ha, hb, ha', hb']
  split_ifs
  · rfl
  · simpa using ⟨hak.trans hkb', hak'.trans hkb⟩

/-- Of two L0 files that share a key, one is shallower. -/
theorem shallower_or {r : Sst} (hcf : r.file.cfId = s.file.cfId) (hs : s.file.level = 0)
    (hr : r.file.level = 0) (hne : r.file.name ≠ s.file.name) :
    Shallower r.file s.file ∨ fileAgeKey r.file < fileAgeKey s.file := by
  rcases lt_trichotomy (fileAgeKey r.file) (fileAgeKey s.file) with h | h | h
  · exact .inr h
  · exact absurd (fileAgeKey_inj h) hne
  · exact .inl ⟨hcf, .inr ⟨hr, hs, h⟩⟩

variable {ssts : List Sst} {plan : CompactionPlan}

/-- The SSTs that a plan replaces. -/
def CompactionPlan.Replaced (plan : CompactionPlan) (s : Sst) : Prop :=
  s.file.name ∈ plan.sourceFiles ∨ s.file.name ∈ plan.targetFiles

theorem Catalogued.mem_of_name (hc : Catalogued ssts) {files : List FileMeta}
    (hfiles : ∀ f ∈ files, f ∈ entries ssts) {names : List String} (hn : NamesOf names files)
    (hs : s ∈ ssts) : s.file.name ∈ names ↔ s.file ∈ files := by
  rw [hn]
  constructor
  · rintro ⟨f, hf, hname⟩
    obtain ⟨s', hs', rfl⟩ := mem_map.1 (hfiles f hf)
    rwa [← hc.names s' hs' s hs hname]
  · exact fun h => ⟨_, h, rfl⟩

/-- What `Replaces` asks of the SSTs that stay, for a merge. -/
theorem MergePlan.stays (hc : Catalogued ssts) {sources targets : List FileMeta}
    (h : MergePlan (entries ssts) plan sources targets)
    (hsep : 0 < plan.sourceLevel → SeparateAt ssts plan.cfId plan.sourceLevel) :
    ∀ s ∈ ssts, plan.Replaced s → ∀ r ∈ ssts, ¬ plan.Replaced r → r.file.cfId = plan.cfId → ∀ k,
      s.contents.Holds k → r.contents.Holds k →
        (r.file.level < plan.targetLevel ∧ Shallower r.file s.file) ∨
          plan.targetLevel < r.file.level ∨
            (r.file.level = plan.targetLevel ∧ s.file.level = plan.targetLevel) := by
  intro s hs hsin r hr hrin hcf k hk hk'
  have hsource := fun {s} hs => hc.mem_of_name (fun f hf => (h.sourcesAt f hf).1) h.sourceFiles
    (s := s) hs
  have htarget := fun {s} hs => hc.mem_of_name (fun f hf => (h.targetsAt f hf).1) h.targetFiles
    (s := s) hs
  simp only [CompactionPlan.Replaced, hsource hs, htarget hs] at hsin
  simp only [CompactionPlan.Replaced, hsource hr, htarget hr, not_or] at hrin
  have hlevel := h.level
  have hshare := shareKey_of_holds (hc.bounded s hs) (hc.bounded r hr) hk hk'
  rcases lt_trichotomy r.file.level plan.targetLevel with hr' | hr' | hr'
  · refine .inl ⟨hr', ?_⟩
    rcases hsin with hsin | hsin
    · obtain ⟨-, hscf, hsl⟩ := h.sourcesAt _ hsin
      have hne : r.file.name ≠ s.file.name := fun hn => hrin.1 (hc.names r hr s hs hn ▸ hsin)
      rcases Nat.lt_or_ge r.file.level plan.sourceLevel with hlt | hge
      · exact ⟨hcf.trans hscf.symm, .inl (by omega)⟩
      · have hrl : r.file.level = plan.sourceLevel := by omega
        rcases Nat.eq_zero_or_pos plan.sourceLevel with hzero | hpos
        · -- An older file that shares the key would be in the batch.
          refine (shallower_or (hcf.trans hscf.symm) (by omega) (by omega) hne).resolve_right
            fun hage => hrin.1 ?_
          refine h.older hzero s.file hsin r.file
            ⟨mem_map_of_mem hr, hcf, by omega⟩ hage ?_
          exact l0KeyRangesOverlap_of_shareKey ⟨hshare.2, hshare.1⟩
        · exact absurd hk' (hsep hpos s hs r hr hscf hcf hsl hrl hne.symm k hk)
    · obtain ⟨-, hscf, hsl⟩ := h.targetsAt _ hsin
      exact ⟨hcf.trans hscf.symm, .inl (by omega)⟩
  · rcases hsin with hsin | hsin
    · exact absurd (h.overlap r.file ⟨mem_map_of_mem hr, hcf, hr'⟩ s.file hsin k hshare) hrin.2
    · exact .inr (.inr ⟨hr', (h.targetsAt _ hsin).2.2⟩)
  · exact .inr (.inl hr')

/-- What `Replaces` asks of the SSTs that stay, for a rewrite. -/
theorem RewritePlan.stays (hc : Catalogued ssts) {sources : List FileMeta}
    (h : RewritePlan (entries ssts) plan sources) :
    ∀ s ∈ ssts, plan.Replaced s → ∀ r ∈ ssts, ¬ plan.Replaced r → r.file.cfId = plan.cfId → ∀ k,
      s.contents.Holds k → r.contents.Holds k →
        (r.file.level < plan.targetLevel ∧ Shallower r.file s.file) ∨
          plan.targetLevel < r.file.level ∨
            (r.file.level = plan.targetLevel ∧ s.file.level = plan.targetLevel) := by
  intro s hs hsin r hr hrin hcf k hk hk'
  have hsource := hc.mem_of_name (fun f hf => (h.sourcesAt f hf).1) h.sourceFiles hs
  simp only [CompactionPlan.Replaced, hsource, h.targetFiles, not_mem_nil, or_false] at hsin
  obtain ⟨-, hscf, hsl⟩ := h.sourcesAt _ hsin
  have hlevel := h.level
  rcases lt_trichotomy r.file.level plan.targetLevel with hr' | hr' | hr'
  · exact .inl ⟨hr', hcf.trans hscf.symm, .inl (by omega)⟩
  · exact .inr (.inr ⟨hr', by omega⟩)
  · exact .inr (.inl hr')

end Stays

/-! ## Transitions -/

/-- What changes the set of SSTs. -/
inductive Origin
  | flush
  | zeroLevel
  | innerLevel (cfId level : ℕ)
  | repair
  | move
  deriving DecidableEq, Repr

/-- The plans of the planner, and which of its functions returns them. -/
inductive Planned (c : Compactor) (files : List FileMeta) (cfId : ℕ) :
    Origin → CompactionPlan → Prop
  | zeroLevel {levels plan} (hlevels : c.validatedLevels files cfId = .ok (some levels))
      (h : c.planZeroLevel levels cfId = .ok (some plan)) : Planned c files cfId .zeroLevel plan
  | innerLevel {levels plan} (level : ℕ) (eligible : FileMeta → Bool) (hlevel : 0 < level)
      (hlevels : c.validatedLevels files cfId = .ok (some levels))
      (h : c.planInnerLevelFiltered levels cfId level eligible = .ok (some plan)) :
      Planned c files cfId (.innerLevel cfId level) plan
  | repair {plan} (h : c.pickRepairCompaction files cfId = .ok (some plan)) :
      Planned c files cfId .repair plan

/-- What the runtime fills in when it launches a plan. -/
structure LaunchParameters where
  outputSeq : ℕ
  targetSstSize : ℕ
  compactionMemoryLimit : ℕ
  snapshotHorizon : Option ℕ
  grandparentOverlap : GrandparentOverlap

/-- The plan as it is launched. -/
def CompactionPlan.launch (plan : CompactionPlan) (p : LaunchParameters) : CompactionPlan :=
  { plan with
    outputSeq := p.outputSeq
    targetSstSize := p.targetSstSize
    compactionMemoryLimit := p.compactionMemoryLimit
    snapshotHorizon := p.snapshotHorizon
    grandparentOverlap := p.grandparentOverlap }

/-- The SST that an output of a plan is published as. -/
def PublishedAs (plan : CompactionPlan) (o : FinishedPartition) (s : Sst) : Prop :=
  s.contents = o.contents ∧ ∃ size crc summary, summarize size o.contents = some summary ∧
    s.file = publishedMeta o.name plan.targetLevel plan.cfId crc summary

/-- The directory has the SSTs as they are. -/
def Backs (dir : SstDirectory) (ssts : List Sst) : Prop :=
  ∀ s ∈ ssts, ∀ d, dir s.file.name = .ok d → d = s.contents

/-- A change of the set of SSTs. -/
inductive Transition (c : Compactor) (ssts : List Sst) : Origin → List Sst → Prop
  /-- A memtable is flushed to L0. -/
  | flush {s : Sst} (level : s.file.level = 0) (bounded : Bounded s.file s.contents)
      (sorted : s.contents.KeySorted) (fresh : ∀ r ∈ ssts, r.file.name ≠ s.file.name)
      (newest : ∀ r ∈ ssts, r.file.cfId = s.file.cfId → r.file.level = 0 →
        fileAgeKey r.file < fileAgeKey s.file)
      (newer : ∀ r ∈ ssts, r.file.cfId = s.file.cfId → ∀ k a b, s.contents.HasSeqAt k a →
        r.contents.HasSeqAt k b → b < a) : Transition c ssts .flush (ssts ++ [s])
  /-- A plan is executed, and its inputs replaced by its outputs. -/
  | compact (params : LaunchParameters) (factory : SstFactory) (dir : SstDirectory)
      (resources : CompactionResources) (env : Env MidgeError) {cfId origin plan outputs env'}
      {published : List Sst} (planned : Planned c (entries ssts) cfId origin plan)
      (backs : Backs dir ssts)
      (executed : executeCompactionAtTarget factory dir (plan.launch params) resources env =
        .ok (outputs, env'))
      (publishedAs : List.Forall₂ (PublishedAs plan) outputs published)
      (names : (published.map (·.file.name)).Nodup)
      (fresh : ∀ s ∈ published, ∀ r ∈ ssts, r.file.name ≠ s.file.name) :
      Transition c ssts origin
        (ssts.filter (fun s => decide (s.file.name ∉ plan.inputFiles)) ++ published)
  /-- Files are moved to the next level in the manifest. -/
  | move {captured target} (valid : validateSstMove (entries ssts) captured target = .ok false) :
      Transition c ssts .move (ssts.map fun s => { s with file := movedEntry captured target s.file })

variable {origin : Origin}

/-- A plan is a merge or a rewrite. -/
theorem Planned.merge_or_rewrite {c : Compactor} {files : List FileMeta} {cfId : ℕ}
    {plan : CompactionPlan} (h : Planned c files cfId origin plan) :
    plan.cfId = cfId ∧
      ((∃ sources targets, MergePlan files plan sources targets ∧
        (0 < plan.sourceLevel → origin = .innerLevel plan.cfId plan.sourceLevel)) ∨
      ∃ sources, RewritePlan files plan sources) := by
  cases h with
  | zeroLevel hlevels h =>
    obtain ⟨hcf, hzero, sources, targets, hplan⟩ := Compactor.of_planZeroLevel hlevels h
    exact ⟨hcf, .inl ⟨sources, targets, hplan, fun hpos => by omega⟩⟩
  | innerLevel level eligible hlevel hlevels h =>
    obtain ⟨hcf, hsource, ⟨sources, targets, hplan⟩ | hplan⟩ :=
      Compactor.of_planInnerLevelFiltered hlevels hlevel h
    · exact ⟨hcf, .inl ⟨sources, targets, hplan, fun _ => by rw [hcf, hsource]⟩⟩
    · exact ⟨hcf, .inr hplan⟩
  | repair h =>
    obtain ⟨hcf, hplan⟩ := Compactor.of_pickRepairCompaction h
    exact ⟨hcf, .inr hplan⟩

/-! ## Every transition keeps the order -/

variable {outputs : List FinishedPartition} {contents : List SstContents} {published : List Sst}
  {dir : SstDirectory}

section Step

variable {c : Compactor} {ssts : List Sst} {plan : CompactionPlan}

/-- The data of the outputs comes from the inputs. -/
theorem Executed.hasSeqAt (h : Executed dir plan contents outputs) {o : FinishedPartition}
    (ho : o ∈ outputs) {seq : ℕ} (hk : o.contents.HasSeqAt k seq) :
    ∃ d ∈ contents, d.HasSeqAt k seq := by
  have hversion : ∀ v ∈ (outputContents outputs).versions, ∃ d ∈ contents, v ∈ d.versions := by
    intro v hv
    have hcontents := h.contents
    split at hcontents
    · simpa [SstContents.concat] using hcontents.versions.mem_iff.1 hv
    · simpa [SstContents.concat] using ((hcontents.selected v).1 hv).1
  have hcover : ∀ t ∈ (outputContents outputs).tombstones, t.Covers k →
      ∃ d ∈ contents, ∃ t' ∈ d.tombstones, t'.Covers k ∧ t'.seq = t.seq := by
    intro t ht hcovers
    have hcontents := h.contents
    have : ∃ t' ∈ (SstContents.concat contents).tombstones, t'.Covers k ∧ t'.seq = t.seq := by
      split at hcontents
      · exact (hcontents.covers k t.seq).1 ⟨t, ht, hcovers, rfl⟩
      · obtain ⟨t', ht', -, h'⟩ := (hcontents.covers k t.seq).1 ⟨t, ht, hcovers, rfl⟩
        exact ⟨t', ht', h'⟩
    obtain ⟨t', ht', h'⟩ := this
    obtain ⟨d, hd, ht'⟩ := mem_flatMap.1 ht'
    exact ⟨d, hd, t', ht', h'⟩
  rcases hk with ⟨v, hv, hkey, hseq⟩ | ⟨t, ht, hkey, hseq⟩
  · obtain ⟨d, hd, hv⟩ := hversion v (by
      rw [versions_outputContents]
      exact mem_flatMap.2 ⟨o, ho, hv⟩)
    exact ⟨d, hd, .inl ⟨v, hv, hkey, hseq⟩⟩
  · obtain ⟨d, hd, t', ht', hk', hs'⟩ := hcover t (mem_outputContents_tombstones.2 ⟨o, ho, ht⟩) hkey
    exact ⟨d, hd, .inr ⟨t', ht', hk', hs'.trans hseq⟩⟩

/-- The flushed file is the newest. -/
theorem levelOrdered_flush (ho : LevelOrdered ssts) (hlevel : s.file.level = 0)
    (hnewest : ∀ r ∈ ssts, r.file.cfId = s.file.cfId → r.file.level = 0 →
      fileAgeKey r.file < fileAgeKey s.file)
    (hnewer : ∀ r ∈ ssts, r.file.cfId = s.file.cfId → ∀ k a b, s.contents.HasSeqAt k a →
      r.contents.HasSeqAt k b → b < a) : LevelOrdered (ssts ++ [s]) := by
  intro r hr r' hr' hshallow k a b ha hb
  rw [mem_append, mem_singleton] at hr hr'
  rcases hr with hr | rfl <;> rcases hr' with hr' | rfl
  · exact ho r hr r' hr' hshallow k a b ha hb
  · obtain ⟨hcf, hl | ⟨hl, -, hage⟩⟩ := hshallow
    · omega
    · exact absurd hage (hnewest r hr hcf hl).not_gt
  · exact hnewer r' hr' hshallow.1.symm k a b ha hb
  · obtain ⟨-, hl | ⟨-, -, hage⟩⟩ := hshallow
    · omega
    · exact absurd hage (lt_irrefl _)

theorem separate_flush (hsep : Separate ssts) (hlevel : s.file.level = 0) :
    Separate (ssts ++ [s]) := by
  intro cf l hl r hr r' hr' hcf hcf' hrl hrl'
  rw [mem_append, mem_singleton] at hr hr'
  rcases hr with hr | rfl
  · rcases hr' with hr' | rfl
    · exact hsep cf l hl r hr r' hr' hcf hcf' hrl hrl'
    · omega
  · omega

/-- The plan takes files of its family to a deeper level, past nothing. -/
structure FitsPlan (ssts : List Sst) (plan : CompactionPlan) : Prop where
  positive : 0 < plan.targetLevel
  named : ∀ name ∈ plan.sourceFiles ++ plan.targetFiles, ∃ s ∈ ssts, s.file.name = name ∧
    s.file.cfId = plan.cfId ∧ s.file.level ≤ plan.targetLevel
  stays : ∀ s ∈ ssts, plan.Replaced s → ∀ r ∈ ssts, ¬ plan.Replaced r → r.file.cfId = plan.cfId →
    ∀ k, s.contents.Holds k → r.contents.Holds k →
      (r.file.level < plan.targetLevel ∧ Shallower r.file s.file) ∨
        plan.targetLevel < r.file.level ∨
          (r.file.level = plan.targetLevel ∧ s.file.level = plan.targetLevel)

theorem Planned.fits (hc : Catalogued ssts) {cfId : ℕ}
    (h : Planned c (entries ssts) cfId origin plan)
    (hsep : ∀ cf level, 0 < level → origin = .innerLevel cf level → SeparateAt ssts cf level) :
    FitsPlan ssts plan := by
  have hnamed : ∀ {names files level name}, NamesOf names files →
      (∀ f ∈ files, AtLevel (entries ssts) plan.cfId level f) → name ∈ names →
      ∃ s ∈ ssts, s.file.name = name ∧ s.file.cfId = plan.cfId ∧ s.file.level = level := by
    intro names files level name hn hat hname
    obtain ⟨f, hf, rfl⟩ := (hn name).1 hname
    obtain ⟨hmem, hcf, hl⟩ := hat f hf
    obtain ⟨s, hs, rfl⟩ := mem_map.1 hmem
    exact ⟨s, hs, rfl, hcf, hl⟩
  obtain ⟨-, ⟨sources, targets, hplan, horigin⟩ | ⟨sources, hplan⟩⟩ := h.merge_or_rewrite
  · have hlevel := hplan.level
    refine ⟨by omega, fun name hname => ?_, hplan.stays hc fun hpos => hsep _ _ hpos (horigin hpos)⟩
    rcases mem_append.1 hname with hname | hname
    · obtain ⟨s, hs, hn, hcf, hl⟩ := hnamed hplan.sourceFiles hplan.sourcesAt hname
      exact ⟨s, hs, hn, hcf, by omega⟩
    · obtain ⟨s, hs, hn, hcf, hl⟩ := hnamed hplan.targetFiles hplan.targetsAt hname
      exact ⟨s, hs, hn, hcf, by omega⟩
  · have hlevel := hplan.level
    refine ⟨hlevel ▸ hplan.positive, fun name hname => ?_, hplan.stays hc⟩
    rw [hplan.targetFiles, append_nil] at hname
    obtain ⟨s, hs, hn, hcf, hl⟩ := hnamed hplan.sourceFiles hplan.sourcesAt hname
    exact ⟨s, hs, hn, hcf, by omega⟩

theorem mem_of_opened {names : List String} (h : Opened dir names contents) {d : SstContents}
    (hd : d ∈ contents) : ∃ name ∈ names, dir name = .ok d := by
  induction h with
  | nil => simp at hd
  | cons hopen _ ih =>
    rcases mem_cons.1 hd with rfl | hd
    · exact ⟨_, mem_cons_self, hopen⟩
    · obtain ⟨name, hname, hopen⟩ := ih hd
      exact ⟨name, mem_cons_of_mem _ hname, hopen⟩

/-- No output holds a key of another one. -/
theorem disjoint_of_outputsOrdered (hordered : OutputsOrdered outputs)
    (hpub : List.Forall₂ (PublishedAs plan) outputs published) :
    published.Pairwise fun o o' => ∀ k, ¬ (o.contents.Holds k ∧ o'.contents.Holds k) := by
  induction hpub with
  | nil => exact .nil
  | @cons o s outputs published hs hpub ih =>
    rw [OutputsOrdered, pairwise_cons] at hordered
    refine pairwise_cons.2 ⟨fun s' hs' k hk => ?_, ih hordered.2⟩
    obtain ⟨o', ho', hcontents, -⟩ := forall₂_exists hpub.flip hs'
    rw [hs.1, hcontents] at hk
    exact lt_irrefl k (hordered.1 o' ho' k k hk.1 hk.2)

/-- An executed plan replaces its inputs. -/
theorem FitsPlan.replaces (h : FitsPlan ssts plan) (hc : Catalogued ssts) (hbacks : Backs dir ssts)
    {params : LaunchParameters}
    (hinputs : plan.inputFiles = combinedInputFiles plan.sourceFiles plan.targetFiles)
    (hexec : Executed dir (plan.launch params) contents outputs)
    (hpub : List.Forall₂ (PublishedAs plan) outputs published) :
    Replaces plan.cfId plan.targetLevel plan.Replaced (· ∈ published) ssts
      (ssts.filter (fun s => decide (s.file.name ∉ plan.inputFiles)) ++ published) where
  positive := h.positive
  family s hs hr := by
    obtain ⟨s', hs', hname, hfits⟩ := h.named s.file.name (mem_append.2 hr)
    rwa [← hc.names s' hs' s hs hname]
  stays := h.stays
  mem s hs := by
    rw [mem_append, mem_filter, hinputs, decide_eq_true_eq, mem_combinedInputFiles,
      mem_append] at hs
    exact hs
  atLevel o ho := by
    obtain ⟨_, -, -, _, _, _, -, hfile⟩ := forall₂_exists hpub.flip ho
    rw [hfile]
    exact ⟨rfl, rfl⟩
  fromInputs o ho k seq hk := by
    obtain ⟨part, hpart, hcontents, -⟩ := forall₂_exists hpub.flip ho
    rw [hcontents] at hk
    obtain ⟨d, hd, hk⟩ := hexec.hasSeqAt hpart hk
    obtain ⟨name, hname, hopen⟩ := mem_of_opened hexec.opened hd
    obtain ⟨s, hs, rfl, -⟩ := h.named name hname
    rw [hbacks s hs d hopen] at hk
    exact ⟨s, hs, mem_append.1 hname, hk⟩
  disjoint o o' ho ho' hne k hk hk' := by
    have : Std.Symm fun o o' : Sst => ∀ k, ¬ (o.contents.Holds k ∧ o'.contents.Holds k) :=
      ⟨fun _ _ h k hk => h k hk.symm⟩
    exact (disjoint_of_outputsOrdered hexec.ordered hpub).forall ho ho' (fun h => hne (h ▸ rfl)) k
      ⟨hk, hk'⟩

/-- Files that share a key overlap. -/
theorem overlaps_of_shareKey {f g : FileMeta} (h : ShareKey f g k) : overlaps f g := by
  obtain ⟨⟨a, b, ha, hb, hak, hkb⟩, a', b', ha', hb', hak', hkb'⟩ := h
  simp only [overlaps, bounds, GrandparentOverlap.completeBounds, ha, hb, ha', hb',
    hak.trans hkb, hak'.trans hkb', and_true]
  split
  next hf hg =>
    split_ifs at hf hg
    cases hf
    cases hg
    simpa using ⟨hak.trans hkb', hak'.trans hkb⟩
  next => rfl

section Move

variable {captured : List FileMeta} {first : FileMeta} {target : ℕ}

/-- The entry that a move gives to a captured SST. -/
theorem AcceptedMove.entry (h : AcceptedMove (entries ssts) captured first target)
    (hc : Catalogued ssts) {s : Sst} (hs : s ∈ ssts)
    (hname : s.file.name ∈ captured.map FileMeta.name) :
    ∃ moved ∈ captured, movedEntry captured target s.file = { moved with level := target } ∧
      moved.cfId = first.cfId ∧ moved.level = first.level ∧ sameIdentity s.file moved := by
  obtain ⟨moved, hmem, hn, hentry⟩ := @movedEntry_of_mem captured target s.file hname
  obtain ⟨current, hcurrent⟩ := h.live moved hmem
  refine ⟨moved, hmem, hentry, hcurrent.cfId, hcurrent.level, ?_⟩
  obtain ⟨s', hs', rfl⟩ := mem_map.1 (mem_of_find?_eq_some hcurrent.found)
  have hsame : s' = s := hc.names s' hs' s hs (by
    have := find?_some hcurrent.found
    rw [← hn]
    simpa using this)
  rw [← hsame]
  exact hcurrent.identity

theorem Bounded.of_sameIdentity {file moved : FileMeta} {d : SstContents} (h : Bounded file d)
    (hsame : sameIdentity file moved) (level : ℕ) : Bounded { moved with level := level } d := by
  obtain ⟨-, -, -, -, -, hsk, hlk, hss, hls, hcomplete⟩ := sameIdentity_iff.1 hsame
  exact ⟨hcomplete ▸ h.complete, hsk ▸ hlk ▸ h.keys, hss ▸ h.smallestSeq, hls ▸ h.largestSeq⟩

theorem shareKey_congr {f f' g : FileMeta} (h : ShareKey f g k)
    (hs : f.smallestKey = f'.smallestKey) (hl : f.largestKey = f'.largestKey) :
    ShareKey f' g k := by
  rw [ShareKey, ← hs, ← hl]
  exact h

/-- What stays at L0 and shares a key with a captured file is newer. -/
theorem shallower_of_not_mayBeOlder (ho : LevelOrdered ssts) (hc : Catalogued ssts) {r : Sst}
    (hs : s ∈ ssts) (hr : r ∈ ssts) (hcf : r.file.cfId = s.file.cfId) (hsl : s.file.level = 0)
    (hrl : r.file.level = 0) (hne : r.file.name ≠ s.file.name)
    (hage : mayBeOlder r.file s.file = false) (hk : s.contents.Holds k) (hk' : r.contents.Holds k) :
    Shallower r.file s.file := by
  refine (shallower_or hcf hsl hrl hne).resolve_right fun hlt => ?_
  obtain ⟨a, ha⟩ := holds_iff.1 hk
  obtain ⟨b, hb⟩ := holds_iff.1 hk'
  have hba := ho s hs r hr ⟨hcf.symm, .inr ⟨hsl, hrl, hlt⟩⟩ k a b ha hb
  rw [mayBeOlder] at hage
  split at hage
  next first last hfirst hlast =>
    have h₁ := (hc.bounded r hr).smallestSeq first hfirst b (seq_mem_of_hasSeqAt hb)
    have h₂ := (hc.bounded s hs).largestSeq last hlast a (seq_mem_of_hasSeqAt ha)
    have h₃ := of_decide_eq_false hage
    omega
  next => cases hage

/-- An accepted move replaces the captured files. -/
theorem AcceptedMove.replaces (h : AcceptedMove (entries ssts) captured first target)
    (hc : Catalogued ssts) (ho : LevelOrdered ssts) :
    Replaces first.cfId target (fun s => s.file.name ∈ captured.map FileMeta.name)
      (fun s => ∃ r ∈ ssts, r.file.name ∈ captured.map FileMeta.name ∧
        s = { r with file := movedEntry captured target r.file }) ssts
      (ssts.map fun s => { s with file := movedEntry captured target s.file }) where
  positive := h.target_eq ▸ Nat.succ_pos _
  family s hs hname := by
    obtain ⟨moved, -, -, hcf, hl, hsame⟩ := h.entry hc hs hname
    obtain ⟨-, hsl, -, -, hscf, -⟩ := sameIdentity_iff.1 hsame
    have := h.target_eq
    exact ⟨hscf.trans hcf, by omega⟩
  stays s hs hname r hr hrname hrcf k hk hk' := by
    obtain ⟨moved, hmem, -, hcf, hl, hsame⟩ := h.entry hc hs hname
    obtain ⟨-, hsl, -, -, hscf, hsk, hlk, hss, hls, -⟩ := sameIdentity_iff.1 hsame
    have hno := h.others moved hmem r.file (mem_map_of_mem hr) hrcf hrname
    have hover : overlaps moved r.file := overlaps_of_shareKey <| shareKey_congr
      (shareKey_of_holds (hc.bounded s hs) (hc.bounded r hr) hk hk') hsk hlk
    have hcfs : r.file.cfId = s.file.cfId := hrcf.trans (hscf.trans hcf).symm
    have htarget := h.target_eq
    rcases lt_trichotomy r.file.level target with hlt | heq | hgt
    · refine .inl ⟨hlt, ?_⟩
      rcases Nat.lt_or_ge r.file.level first.level with hlt | hge
      · exact ⟨hcfs, .inl (by omega)⟩
      · rcases Nat.eq_zero_or_pos first.level with hzero | hpos
        · have hage := hno.zeroLevel hzero (by omega) hover
          refine shallower_of_not_mayBeOlder ho hc hs hr hcfs (by omega) (by omega)
            (fun hn => hrname (hn ▸ hname)) ?_ hk hk'
          rwa [mayBeOlder, hls]
        · simp [hno.atSource hpos (by omega)] at hover
    · simp [hno.atTarget heq] at hover
    · exact .inr (.inl hgt)
  mem s hs := by
    obtain ⟨r, hr, rfl⟩ := mem_map.1 hs
    by_cases hname : r.file.name ∈ captured.map FileMeta.name
    · exact .inr ⟨r, hr, hname, rfl⟩
    · rw [movedEntry_of_not_mem hname]
      exact .inl ⟨hr, hname⟩
  atLevel o ho := by
    obtain ⟨r, hr, hname, rfl⟩ := ho
    obtain ⟨moved, -, hentry, hcf, -⟩ := h.entry hc hr hname
    exact ⟨hentry ▸ hcf, hentry ▸ rfl⟩
  fromInputs o ho k seq hk := by
    obtain ⟨r, hr, hname, rfl⟩ := ho
    exact ⟨r, hr, hname, hk⟩
  disjoint o o' ho ho' hne k hk hk' := by
    obtain ⟨r, hr, hname, rfl⟩ := ho
    obtain ⟨r', hr', hname', rfl⟩ := ho'
    obtain ⟨moved, hmem, hentry, -, -, hsame⟩ := h.entry hc hr hname
    obtain ⟨moved', hmem', hentry', -, -, hsame'⟩ := h.entry hc hr' hname'
    simp only [hentry, hentry'] at hne
    have : Std.Symm fun a b : FileMeta => ∀ k, ¬ ShareKey a b k := ⟨fun _ _ h k hk => h k hk.symm⟩
    have hno : captured.Pairwise fun a b => ∀ k, ¬ ShareKey a b k :=
      h.disjoint.imp fun {a b} hover k hshare => by
        simp [overlaps_of_shareKey (show ShareKey b a k from hshare.symm)] at hover
    exact hno.forall hmem hmem' (fun heq => hne (heq ▸ rfl)) k
      ⟨((hc.bounded r hr).of_sameIdentity hsame target).of_holds hk,
        ((hc.bounded r' hr').of_sameIdentity hsame' target).of_holds hk'⟩

end Move

theorem catalogued_flush (hc : Catalogued ssts) (hbounded : Bounded s.file s.contents)
    (hsorted : s.contents.KeySorted) (hfresh : ∀ r ∈ ssts, r.file.name ≠ s.file.name) :
    Catalogued (ssts ++ [s]) := by
  constructor
  · intro r hr r' hr' hname
    rw [mem_append, mem_singleton] at hr hr'
    rcases hr with hr | rfl <;> rcases hr' with hr' | rfl
    · exact hc.names r hr r' hr' hname
    · exact absurd hname (hfresh r hr)
    · exact absurd hname.symm (hfresh r' hr')
    · rfl
  · simpa [or_imp, forall_and] using ⟨hc.bounded, hbounded⟩
  · simpa [or_imp, forall_and] using ⟨hc.sorted, hsorted⟩

theorem catalogued_compact (hc : Catalogued ssts) (p : Sst → Bool)
    (hsorted : ∀ o ∈ outputs, o.contents.KeySorted)
    (hpub : List.Forall₂ (PublishedAs plan) outputs published)
    (hnames : (published.map (·.file.name)).Nodup)
    (hfresh : ∀ s ∈ published, ∀ r ∈ ssts, r.file.name ≠ s.file.name) :
    Catalogued (ssts.filter p ++ published) := by
  constructor
  · intro r hr r' hr' hname
    rw [mem_append, mem_filter] at hr hr'
    rcases hr with ⟨hr, -⟩ | hr <;> rcases hr' with ⟨hr', -⟩ | hr'
    · exact hc.names r hr r' hr' hname
    · exact absurd hname (hfresh r' hr' r hr)
    · exact absurd hname.symm (hfresh r hr r' hr')
    · exact inj_on_of_nodup_map hnames hr hr' hname
  · intro s hs
    rcases mem_append.1 hs with hs | hs
    · exact hc.bounded s (mem_of_mem_filter hs)
    · obtain ⟨o, -, hcontents, size, crc, summary, hsummary, hfile⟩ := forall₂_exists hpub.flip hs
      rw [hfile, hcontents]
      exact bounded_publishedMeta hsummary
  · intro s hs
    rcases mem_append.1 hs with hs | hs
    · exact hc.sorted s (mem_of_mem_filter hs)
    · obtain ⟨o, ho, hcontents, -⟩ := forall₂_exists hpub.flip hs
      rw [hcontents]
      exact hsorted o ho

theorem AcceptedMove.catalogued {captured : List FileMeta} {first : FileMeta} {target : ℕ}
    (h : AcceptedMove (entries ssts) captured first target) (hc : Catalogued ssts) :
    Catalogued (ssts.map fun s => { s with file := movedEntry captured target s.file }) := by
  have hentry : ∀ s ∈ ssts, (movedEntry captured target s.file).name = s.file.name ∧
      Bounded (movedEntry captured target s.file) s.contents := by
    intro s hs
    by_cases hname : s.file.name ∈ captured.map FileMeta.name
    · obtain ⟨moved, -, hentry, -, -, hsame⟩ := h.entry hc hs hname
      rw [hentry]
      exact ⟨(sameIdentity_iff.1 hsame).1.symm, (hc.bounded s hs).of_sameIdentity hsame target⟩
    · rw [movedEntry_of_not_mem hname]
      exact ⟨rfl, hc.bounded s hs⟩
  constructor
  · intro r hr r' hr' hname
    obtain ⟨s, hs, rfl⟩ := mem_map.1 hr
    obtain ⟨s', hs', rfl⟩ := mem_map.1 hr'
    simp only [(hentry s hs).1, (hentry s' hs').1] at hname
    rw [hc.names s hs s' hs' hname]
  · intro r hr
    obtain ⟨s, hs, rfl⟩ := mem_map.1 hr
    exact (hentry s hs).2
  · intro r hr
    obtain ⟨s, hs, rfl⟩ := mem_map.1 hr
    exact hc.sorted s hs

/-- Every change keeps the manifest right, the levels in order, and the files of
    a level separate. -/
theorem Transition.layout {ssts' : List Sst} (hc : Catalogued ssts) (ho : LevelOrdered ssts)
    (h : Transition c ssts origin ssts')
    (hsep : ∀ cf level, 0 < level → origin = .innerLevel cf level → SeparateAt ssts cf level) :
    Catalogued ssts' ∧ LevelOrdered ssts' ∧ (Separate ssts → Separate ssts') := by
  cases h with
  | flush hlevel hbounded hsorted hfresh hnewest hnewer =>
    exact ⟨catalogued_flush hc hbounded hsorted hfresh,
      levelOrdered_flush ho hlevel hnewest hnewer, fun h => separate_flush h hlevel⟩
  | @compact params _ dir _ _ _ _ plan _ _ _ hplanned hbacks hexecuted hpub hnames hfresh =>
    have hfits := hplanned.fits hc hsep
    have hsources : ∀ name ∈ plan.sourceFiles, ∀ sst, dir name = .ok sst → sst.KeySorted := by
      intro name hname sst hopen
      obtain ⟨s, hs, rfl, -⟩ := hfits.named name (mem_append_left _ hname)
      rw [hbacks s hs sst hopen]
      exact hc.sorted s hs
    obtain ⟨hinputs, -, contents, hexec⟩ :=
      @executed_of_returns _ _ (plan.launch params) _ _ hsources (.intro hexecuted)
    have hreplaces := hfits.replaces hc hbacks hinputs hexec hpub
    exact ⟨catalogued_compact hc _ hexec.sorted hpub hnames hfresh, hreplaces.levelOrdered ho,
      hreplaces.separate hc.names⟩
  | move hvalid =>
    obtain ⟨first, hmove⟩ := accepted_of_validateSstMove hvalid
    have hreplaces := hmove.replaces hc ho
    exact ⟨hmove.catalogued hc, hreplaces.levelOrdered ho, hreplaces.separate hc.names⟩

end Step

/-! ## Runs -/

variable {ssts : List Sst}

/-- If no two files of a level share a key at first, they never do, and every
    change is orderly. -/
theorem layout_of_separate {c : Compactor} {ssts' : List Sst} (hc : Catalogued ssts)
    (ho : LevelOrdered ssts) (hsep : Separate ssts)
    (hrun : Relation.ReflTransGen (fun a b => ∃ origin, Transition c a origin b) ssts ssts') :
    Catalogued ssts' ∧ LevelOrdered ssts' ∧ Separate ssts' := by
  induction hrun with
  | refl => exact ⟨hc, ho, hsep⟩
  | tail _ hstep ih =>
    obtain ⟨hc, ho, hsep⟩ := ih
    obtain ⟨origin, htransition⟩ := hstep
    obtain ⟨hc', ho', hsep'⟩ := htransition.layout hc ho fun cf level hlevel _ => hsep cf level hlevel
    exact ⟨hc', ho', hsep' hsep⟩

/-! ## Two runs -/

/-- An SST of a single version. -/
def pointSst (name : String) (level : ℕ) (key : Key) (seq : ℕ) : Sst where
  file := { name, level, smallestKey := some key, largestKey := some key
            smallestSeq := some seq, largestSeq := some seq, keyBoundsComplete := true }
  contents := ⟨[⟨key, seq, false, some [], none⟩], []⟩

@[simp]
theorem hasSeqAt_pointSst {name : String} {level : ℕ} {key : Key} {seq a : ℕ} :
    (pointSst name level key seq).contents.HasSeqAt k a ↔ key = k ∧ seq = a := by
  simp [HasSeqAt, pointSst]

theorem catalogued_points (hnames : (ssts.map (·.file.name)).Nodup)
    (hpoints : ∀ s ∈ ssts, ∃ name level key seq, s = pointSst name level key seq) :
    Catalogued ssts := by
  refine ⟨fun s hs s' hs' h => List.inj_on_of_nodup_map hnames hs hs' h, fun s hs => ?_,
    fun s hs => ?_⟩
  all_goals obtain ⟨name, level, key, seq, rfl⟩ := hpoints s hs
  · refine ⟨rfl, ⟨key, key, rfl, rfl, ?_⟩, ?_, ?_⟩ <;>
      simp [pointSst, SstContents.bounds, SstContents.sequences]
  · simp [pointSst, SstContents.KeySorted]

/-- The directory of the SSTs. -/
def directoryOf (ssts : List Sst) : SstDirectory := fun name =>
  (ssts.find? (·.file.name = name)).elim (.error .notFound) (.ok ·.contents)

theorem backs_directoryOf (hc : Catalogued ssts) : Backs (directoryOf ssts) ssts := by
  intro s hs d hd
  rw [directoryOf] at hd
  cases hfind : ssts.find? (·.file.name = s.file.name) with
  | none => simp [hfind] at hd
  | some s' =>
    have hname : s'.file.name = s.file.name := by simpa using find?_some hfind
    rw [hfind, hc.names s' (mem_of_find?_eq_some hfind) s hs hname] at hd
    exact (Except.ok.inj hd).symm

/-- A key of both files below. -/
def sharedKey : Key := [⟨7, by decide⟩]

/-- A planner that takes one file at a time. -/
def singleCompactor : Compactor := { config := { l0FileCountThreshold := 1 } }

def launchParameters : LaunchParameters := ⟨3, 1, 1, none, {}⟩

def pointResources : CompactionResources := ⟨1, 4, none, 100⟩

/-- A version in L0 above an older one in L1. -/
def orderedSsts : List Sst := [pointSst "b.sst" 0 sharedKey 10, pointSst "a.sst" 1 sharedKey 5]

/-- The SST that the file in L0 becomes. -/
def mergedSst (level : ℕ) (name : String) : Sst :=
  ⟨publishedMeta name level 0 0 ⟨1, sharedKey, sharedKey, 10, 10, none⟩, (pointSst name level sharedKey 10).contents⟩

theorem catalogued_orderedSsts : Catalogued orderedSsts :=
  catalogued_points (by decide) (by simpa [orderedSsts] using ⟨⟨_, _, _, _, rfl⟩, _, _, _, _, rfl⟩)

theorem levelOrdered_orderedSsts : LevelOrdered orderedSsts := by
  intro s hs s' hs' h k a b ha hb
  simp only [orderedSsts, mem_cons, not_mem_nil, or_false] at hs hs'
  rcases hs with rfl | rfl <;> rcases hs' with rfl | rfl
  all_goals rw [hasSeqAt_pointSst] at ha hb
  · simp [Shallower] at h
  · omega
  · simp [Shallower, pointSst] at h
  · simp [Shallower] at h

theorem transition_orderedSsts : Transition singleCompactor orderedSsts .zeroLevel
    [mergedSst 1 "000000_01_00000000000000000003_0000000000.sst"] :=
  @Transition.compact singleCompactor orderedSsts launchParameters countingFactory
    (directoryOf orderedSsts) pointResources Exec.calm 0 _ _ _ _
    [mergedSst 1 "000000_01_00000000000000000003_0000000000.sst"] (.zeroLevel rfl rfl)
    (backs_directoryOf catalogued_orderedSsts) rfl (.cons ⟨rfl, 1, 0, _, rfl, rfl⟩ .nil)
    (by decide) (by decide)

theorem layout_of_separate_merged :
    ∃ ssts, Transition singleCompactor orderedSsts .zeroLevel ssts ∧ Separate ssts :=
  ⟨_, transition_orderedSsts, (layout_of_separate catalogued_orderedSsts levelOrdered_orderedSsts
    (by grind [Separate, SeparateAt, orderedSsts, pointSst])
    (.single ⟨_, transition_orderedSsts⟩)).2.2⟩

end Midge
