import Midge.Compaction.ExecuteSpec

/-!
# Merges that keep all of the history

A fragmentation, and the merges of a repair into scratch runs, keep every version
and cover every key at the same sequences (`Preserved`). That is all a read at
any sequence depends on (`Preserved.read_eq`): it takes the newest version up to
the sequence, or fails if there are different ones, and looks whether a range
tombstone hides it. So such a merge changes no read, of the past as little as of
the present (`history_preserved`).
-/

namespace Midge

open CompactionEvent KWayMerge SstContents

/-- What a read of `k` at `q` finds. Different versions at the newest sequence
    are corrupt. -/
def SstContents.read (d : SstContents) (k : Key) (q : ℕ) : MidgeResult (Option Resolved) :=
  match d.newestAt k q with
  | none => .ok none
  | some v =>
    if ∃ w ∈ d.versionsAt k q, w.seq = v.seq ∧ w.content ≠ v.content then
      .error (.corruption s!"conflicting SST versions at sequence {v.seq}")
    else .ok (d.resolve k q)

/-! ## Reads -/

variable {v : RawSstVersion}

section Read

variable {d i o rest : SstContents} {k : Key} {q : ℕ}

theorem SstContents.read_of_none (h : d.newestAt k q = none) : d.read k q = .ok none := by
  rw [read, h]

theorem SstContents.read_of_some (h : d.newestAt k q = some v) :
    d.read k q = if ∃ w ∈ d.versionsAt k q, w.seq = v.seq ∧ w.content ≠ v.content then
        .error (.corruption s!"conflicting SST versions at sequence {v.seq}")
      else .ok (if v.isTombstone ∨ d.Hides k q v.seq then none
        else some ⟨v.value, v.seq, v.expiration⟩) := by
  rw [read, h, resolve, h]

theorem Preserved.append (h : Preserved i o) (rest : SstContents) :
    Preserved (i ++ rest) (o ++ rest) where
  versions := h.versions.append (.refl _)
  covers k c := by
    simp only [tombstones_append, List.mem_append, or_and_right, exists_or, h.covers]

theorem Preserved.mem_versionsAt_iff (h : Preserved i o) :
    v ∈ o.versionsAt k q ↔ v ∈ i.versionsAt k q := by
  rw [mem_versionsAt, mem_versionsAt, h.versions.mem_iff]

theorem Preserved.hides_iff (h : Preserved i o) {seq : ℕ} : o.Hides k q seq ↔ i.Hides k q seq := by
  have hside : ∀ {a b : SstContents}, (∀ c, (∃ t ∈ a.tombstones, t.Covers k ∧ t.seq = c) →
      ∃ t ∈ b.tombstones, t.Covers k ∧ t.seq = c) → a.Hides k q seq → b.Hides k q seq := by
    rintro a b hab ⟨t, ht, hcov, hq, hseq⟩
    obtain ⟨t', ht', hcov', heq⟩ := hab t.seq ⟨t, ht, hcov, rfl⟩
    exact ⟨t', ht', hcov', heq ▸ hq, heq ▸ hseq⟩
  exact ⟨hside fun c => (h.covers k c).1, hside fun c => (h.covers k c).2⟩

/-- Whether the newest versions are in conflict does not depend on which of them
    is looked at. -/
theorem conflict_iff {l : List RawSstVersion} {v' : RawSstVersion} (hv : v ∈ l) (hv' : v' ∈ l)
    (hseq : v.seq = v'.seq) :
    (∃ w ∈ l, w.seq = v.seq ∧ w.content ≠ v.content) ↔
      ∃ w ∈ l, w.seq = v'.seq ∧ w.content ≠ v'.content := by
  by_cases hcontent : v.content = v'.content
  · rw [hseq, hcontent]
  · exact iff_of_true ⟨v', hv', hseq.symm, Ne.symm hcontent⟩ ⟨v, hv, hseq, hcontent⟩

/-- What is preserved reads the same, at every sequence. -/
theorem Preserved.read_eq (h : Preserved i o) : o.read k q = i.read k q := by
  cases hi : i.newestAt k q with
  | none =>
    have hnil : i.versionsAt k q = [] := List.argmax_eq_none.1 hi
    have ho : o.newestAt k q = none := List.argmax_eq_none.2 <|
      List.eq_nil_iff_forall_not_mem.2 fun v hv => by simp [h.mem_versionsAt_iff, hnil] at hv
    rw [read_of_none hi, read_of_none ho]
  | some v =>
    have hv : v ∈ i.versionsAt k q := List.argmax_mem hi
    cases ho : o.newestAt k q with
    | none =>
      have hnil : o.versionsAt k q = [] := List.argmax_eq_none.1 ho
      simp [← h.mem_versionsAt_iff, hnil] at hv
    | some v' =>
      have hv' : v' ∈ i.versionsAt k q := h.mem_versionsAt_iff.1 (List.argmax_mem ho)
      -- Both are newest, so that they have one sequence.
      have hseq : v'.seq = v.seq := le_antisymm (List.le_of_mem_argmax hv' hi)
        (List.le_of_mem_argmax (h.mem_versionsAt_iff.2 hv) ho)
      rw [read_of_some hi, read_of_some ho]
      simp only [h.mem_versionsAt_iff, h.hides_iff, conflict_iff hv' hv hseq]
      split_ifs with hconflict
      · rw [hseq]
      all_goals
        have hsame : v' = v := by
          by_contra hne
          refine hconflict ⟨v', hv', hseq, fun hcontent => hne ?_⟩
          exact RawSstVersion.eq_of_content ((mem_versionsAt.1 hv').2.1.trans
            (mem_versionsAt.1 hv).2.1.symm) hseq hcontent
        subst hsame
        first | rfl | contradiction

end Read

/-! ## The merges -/

theorem SameContents.preserved {ssts ssts' : List SstContents} (h : SameContents ssts' ssts) :
    Preserved (.concat ssts) (.concat ssts') where
  versions := h.versions
  covers k c := by
    simp only [concat, h.tombstones.mem_iff]

/-- The outputs `o` hold the history of `i`: the same versions as often, ranges
    that cover every key at the same sequences, and so the same reads at every
    sequence, whatever other data there is. -/
structure HistoryKept (i o : SstContents) : Prop where
  preserved : Preserved i o
  reads : ∀ rest k q, (o ++ rest).read k q = (i ++ rest).read k q

theorem Preserved.historyKept {i o : SstContents} (h : Preserved i o) : HistoryKept i o :=
  ⟨h, fun rest _ _ => (h.append rest).read_eq⟩

/-- A fragmentation, a merge of runs into a scratch run and any number of passes
    of such merges keep the history of their inputs. -/
theorem history_preserved (factory : SstFactory) (dir : SstDirectory) (files : List String)
    (hkeys : ∀ name ∈ files, ∀ sst, dir name = .ok sst → sst.KeySorted) :
    (∀ level sameLevelRepair inputs identity splitKey targetSstSize limit outputs env env' env'',
      collectCompactionStreamInputs dir files [] level sameLevelRepair env = .ok (inputs, env') →
      writeFragmentedCompactionOutputs factory inputs identity splitKey targetSstSize limit env' =
        .ok (outputs, env'') →
      ∃ ssts, Opened dir files ssts ∧ HistoryKept (.concat ssts) (outputContents outputs)) ∧
    (∀ batch byteLimit contents env env', RunsSorted dir batch →
      mergeRepairInputsToRun factory dir batch byteLimit env = .ok (contents, env') →
      ∃ ssts, OpenedRuns dir batch ssts ∧ HistoryKept (.concat ssts) contents) ∧
    ∀ (scratch : RepairScratch) fanIn runs env env',
      scratch.mergeRuns factory dir files fanIn env = .ok (runs, env') →
      ∀ ssts', OpenedRuns dir runs ssts' →
        ∃ ssts, Opened dir files ssts ∧ HistoryKept (.concat ssts) (.concat ssts') := by
  refine ⟨?_, ?_, ?_⟩
  · intro level sameLevelRepair inputs identity splitKey targetSstSize limit outputs env env' env''
      hinputs h
    obtain ⟨ssts, ho, hpreserved, -⟩ := preserved_of_fragments hkeys (.intro hinputs) (.intro h)
    exact ⟨ssts, ho, hpreserved.historyKept⟩
  · intro batch byteLimit contents env env' hbatch h
    obtain ⟨-, ssts, ho, hsame⟩ := of_returns_mergeRepairInputsToRun hbatch (.intro h)
    refine ⟨ssts, ho, Preserved.historyKept ?_⟩
    simpa [concat] using hsame.preserved
  · intro scratch fanIn runs env env' h ssts' ho'
    have hpreserved := RepairScratch.of_returns_mergeRuns hkeys (.intro h)
    obtain ⟨ssts, ho, hsame⟩ := hpreserved.contents ssts' ho'
    exact ⟨ssts, List.forall₂_map_left_iff.1 ho, hsame.preserved.historyKept⟩

/-! Three files that overlap, merged two at a time, and cut at a key. -/

/-- A writer that knows the size of the file from the start. -/
def boundedFactory : SstFactory :=
  { countingFactory with
    encodedSizeUpperBound := fun writer => some writer.versions.length
    encodedSizeUpperBoundAfterSortedEntry := fun writer _ _ => some (writer.versions.length + 1)
    additionalRangeTombstoneSizeUpperBound := fun _ _ _ => some 0 }

def pastKey (n : ℕ) : Key := [byte n]

def pastFiles : List String := ["a.sst", "b.sst", "c.sst"]

/-- A file with a version of the keys 1 and 5 and a range from 1 to 9. -/
def pastSst (seq : ℕ) : SstContents :=
  ⟨[⟨pastKey 1, seq, false, some [byte 0], none⟩, ⟨pastKey 5, seq, true, none, none⟩],
    [⟨pastKey 1, pastKey 9, seq + 1⟩]⟩

def pastDirectory : SstDirectory := fun name =>
  if name = "a.sst" then .ok (pastSst 1)
  else if name = "b.sst" then .ok (pastSst 3)
  else if name = "c.sst" then .ok (pastSst 5)
  else .error (.io "no such file")

theorem pastDirectory_sorted :
    ∀ name ∈ pastFiles, ∀ sst, pastDirectory name = .ok sst → sst.KeySorted := by
  have hsst : ∀ seq, (pastSst seq).KeySorted := fun seq => by
    have hkey : pastKey 1 ≤ pastKey 5 := by decide
    simpa [KeySorted, pastSst] using hkey
  intro name hname sst h
  fin_cases hname <;> (cases h; exact hsst _)

theorem history_preserved_overlap :
    ∃ inputs outputs contents runs env₁ env₂ env₃ env₄,
      collectCompactionStreamInputs pastDirectory pastFiles [] 1 true Exec.calm =
        .ok (inputs, env₁) ∧
      writeFragmentedCompactionOutputs boundedFactory inputs ⟨0, 1, 7, 0⟩ (pastKey 3) 100 none
        env₁ = .ok (outputs, env₂) ∧
      mergeRepairInputsToRun boundedFactory pastDirectory [.original "a.sst", .original "b.sst"]
        100 Exec.calm = .ok (contents, env₃) ∧
      (⟨100, 0⟩ : RepairScratch).mergeRuns boundedFactory pastDirectory pastFiles 2 Exec.calm =
        .ok (runs, env₄) ∧
      (∃ ssts, Opened pastDirectory pastFiles ssts ∧
        HistoryKept (.concat ssts) (outputContents outputs)) ∧
      (∃ ssts, OpenedRuns pastDirectory [.original "a.sst", .original "b.sst"] ssts ∧
        HistoryKept (.concat ssts) contents) ∧
      ∀ ssts', OpenedRuns pastDirectory runs ssts' →
        ∃ ssts, Opened pastDirectory pastFiles ssts ∧
          HistoryKept (.concat ssts) (.concat ssts') := by
  obtain ⟨hfragment, hbatch, hruns⟩ :=
    history_preserved boundedFactory pastDirectory pastFiles pastDirectory_sorted
  refine ⟨_, _, _, _, _, _, _, _, rfl, rfl, rfl, rfl,
    hfragment 1 true _ ⟨0, 1, 7, 0⟩ (pastKey 3) 100 none _ Exec.calm _ _ rfl rfl, ?_,
    hruns ⟨100, 0⟩ 2 _ Exec.calm _ rfl⟩
  refine hbatch _ 100 _ Exec.calm _ (fun run hrun sst hsst => ?_) rfl
  fin_cases hrun
  · exact pastDirectory_sorted "a.sst" (by simp [pastFiles]) sst hsst
  · exact pastDirectory_sorted "b.sst" (by simp [pastFiles]) sst hsst

/-- However many scratch runs a merge or a repair goes through, reads find in its outputs
    what they find in its files, whatever other data there is. -/
theorem executeCompactionAtTarget_resolve (factory : SstFactory) (dir : SstDirectory)
    (plan : CompactionPlan) (resources : CompactionResources) (outputs : List FinishedPartition)
    (hpurpose : ∀ splitKey, plan.purpose ≠ .fragment splitKey)
    (hsources : dir.KeySorted plan.sourceFiles)
    (h : (executeCompactionAtTarget factory dir plan resources).Returns outputs) :
    ∃ ssts, Opened dir (plan.sourceFiles ++ plan.targetFiles) ssts ∧ ∀ unselected k q,
      (plan.pointTombstoneGcEligible ∨ plan.rangeTombstoneGcEligible →
        (SstContents.concat ssts).NewerInHull unselected) →
      (∀ s ∈ (SstContents.concat ssts).sequences, s ≤ q) →
      (outputContents outputs ++ unselected).resolve k q =
        (.concat ssts ++ unselected).resolve k q := by
  obtain ⟨-, -, ssts, hexecuted⟩ := executed_of_returns hsources h
  refine ⟨ssts, hexecuted.opened, fun unselected k q hnewer hq => ?_⟩
  have hcontents := hexecuted.contents
  cases hp : plan.purpose with
  | fragment splitKey => exact absurd hp (hpurpose splitKey)
  | merge | repair =>
    rw [hp] at hcontents
    exact hcontents.resolve_eq hq hnewer

theorem executeCompactionAtTarget_resolve_repair : ∃ plan outputs ssts,
    (executeCompactionAtTarget boundedFactory pastDirectory plan ⟨100, 2, none, 100⟩).Returns outputs ∧
      Opened pastDirectory pastFiles ssts := by
  obtain ⟨outputs, h⟩ : ∃ outputs, (executeCompactionAtTarget boundedFactory pastDirectory
      { purpose := .repair, inputFiles := pastFiles, sourceFiles := pastFiles, targetFiles := []
        sourceLevel := 1, targetLevel := 1, cfId := 0 } ⟨100, 2, none, 100⟩).Returns outputs :=
    ⟨_, @Exec.Returns.intro _ _ _ _ Exec.calm _ rfl⟩
  obtain ⟨ssts, hopened, -⟩ :=
    executeCompactionAtTarget_resolve _ _ _ _ _ (by simp) pastDirectory_sorted h
  exact ⟨_, outputs, ssts, h, hopened⟩

end Midge
