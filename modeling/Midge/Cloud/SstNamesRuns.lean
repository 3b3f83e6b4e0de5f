import Midge.Cloud.SstNamesSpec

/-!
# No name is used twice

The counters of the captures that are selected never go back, from one process to the next
either, and a process hands out numbers from the counters that it has taken over on
(`NameWorld.Inv`). A number that has been given to an output lies below the counters of a capture
that has been selected. So no two outputs of a family get the same number, whichever processes
they belong to (`sst_names_unique`).

A number that has been handed out, but has not been reserved when the process crashes, is handed
out again by the next process (`sst_name_repeated`).
-/

namespace Midge

open List

namespace NameWorld

variable {w w' : NameWorld} {base : ℕ → SstCounters} {s s' : NameState} {epoch : ℕ}

/-- The captures of the process that have been selected reserve the numbers below the bound. -/
def Selected (w : NameWorld) (epoch cfId bound : ℕ) : Prop :=
  ∃ cut ∈ w.history, cut.epoch = epoch ∧ bound ≤ cut.counters.next cfId

/-- What holds of every process, and of the captures that have been selected. Each process has
    taken over the counters `base`. -/
structure Inv (base : ℕ → SstCounters) (w : NameWorld) : Prop where
  process : ∀ epoch s, w.processes epoch = some s →
    s.epoch = epoch ∧ epoch ≤ w.pointerEpoch ∧ s.Inv (base epoch) (w.Selected epoch) []
  start : ∀ epoch, w.starting = some epoch → epoch = w.pointerEpoch ∧ w.processes epoch = none
  captured : ∀ cut ∈ w.history, ∃ s, w.processes cut.epoch = some s ∧ cut ∈ s.cuts
  ordered : w.history.Pairwise fun cut cut' => cut.epoch ≤ cut'.epoch ∧
    cut.counters.Le cut'.counters ∧ (cut.epoch = cut'.epoch → cut.ordinal < cut'.ordinal)
  taken : ∀ epoch s, w.processes epoch = some s → ∀ cut ∈ w.history, cut.epoch < epoch →
    cut.counters.Le (base epoch)

theorem inv_empty : Inv base {} :=
  ⟨by simp, by simp, by simp, .nil, by simp⟩

/-! ## Steps -/

theorem set_processes_self (w : NameWorld) : (w.set s).processes s.epoch = some s :=
  Function.update_self ..

theorem set_processes_of_ne (w : NameWorld) (hepoch : epoch ≠ s.epoch) :
    (w.set s).processes epoch = w.processes epoch := Function.update_of_ne hepoch ..

/-- A process goes on. -/
theorem Inv.set (hw : w.Inv base) (hprocess : w.processes s.epoch = some s)
    (hs' : s.Continues (base s.epoch) (w.Selected s.epoch) s') : (w.set s').Inv base := by
  obtain ⟨hinv, hepoch, hcuts⟩ := hs'
  rw [← hepoch] at hprocess hinv
  refine ⟨fun epoch t ht => ?_, fun epoch hstart => ?_, fun cut hcut => ?_, hw.ordered,
    fun epoch t ht => ?_⟩
  · by_cases hother : epoch = s'.epoch
    · subst hother
      rw [set_processes_self] at ht
      cases ht
      exact ⟨rfl, (hw.process _ s hprocess).2.1, hinv⟩
    · rw [set_processes_of_ne w hother] at ht
      exact hw.process epoch t ht
  · obtain ⟨hpointer, hnone⟩ := hw.start epoch hstart
    refine ⟨hpointer, ?_⟩
    rw [set_processes_of_ne]
    · exact hnone
    · rintro rfl
      rw [hprocess] at hnone
      cases hnone
  · obtain ⟨t, ht, hmem⟩ := hw.captured cut hcut
    by_cases hother : cut.epoch = s'.epoch
    · rw [hother, hprocess] at ht
      cases ht
      exact ⟨s', hother ▸ set_processes_self w, hcuts hmem⟩
    · exact ⟨t, (set_processes_of_ne w hother).trans ht, hmem⟩
  · by_cases hother : epoch = s'.epoch
    · exact hother ▸ hw.taken _ s hprocess
    · rw [set_processes_of_ne w hother] at ht
      exact hw.taken epoch t ht

theorem Inv.claim (hw : w.Inv base) (hepoch : w.pointerEpoch < epoch) :
    Inv base { w with pointerEpoch := epoch, starting := some epoch } where
  process epoch' s hs := by
    obtain ⟨heq, hle, hinv⟩ := hw.process epoch' s hs
    exact ⟨heq, hle.trans hepoch.le, hinv⟩
  start epoch' hstart := by
    cases hstart
    refine ⟨rfl, Option.eq_none_iff_forall_ne_some.2 fun s hs => ?_⟩
    have := (hw.process epoch s hs).2.1
    omega
  captured := hw.captured
  ordered := hw.ordered
  taken := hw.taken

/-- What is selected has all the numbers that have been reserved. -/
theorem Inv.le_selected (hw : w.Inv base) {cut : NameCut} (hcut : cut ∈ w.history) :
    cut.counters.Le w.selected := by
  obtain ⟨l, last, hl⟩ := (eq_nil_or_concat' w.history).resolve_left (ne_nil_of_mem hcut)
  have hselected : w.selected = last.counters := by simp [selected, hl]
  have hordered := hw.ordered
  rw [hl] at hcut hordered
  rw [hselected]
  rcases mem_append.1 hcut with hcut | hcut
  · exact ((pairwise_append.1 hordered).2.2 cut hcut last (mem_singleton.2 rfl)).2.1
  · obtain rfl := mem_singleton.1 hcut
    exact .refl _

theorem Inv.selected_pos (hw : w.Inv base) (cfId : ℕ) : 1 ≤ w.selected.next cfId := by
  cases hhistory : w.history.getLast? with
  | none => simp [selected, hhistory, SstCounters.next]
  | some last =>
    obtain ⟨s, hs, hcut⟩ := hw.captured last (mem_of_getLast? hhistory)
    have hfiles := (hw.process _ s hs).2.2.files
    have hselected : w.selected = last.counters := by simp [selected, hhistory]
    rw [hselected]
    exact (hfiles.positive cfId).trans ((hfiles.captured last hcut).2.2.1 cfId)

theorem Inv.hydrate (hw : w.Inv base) (hstarting : w.starting = some epoch) :
    (({ w with starting := none } : NameWorld).set
      { epoch, manifest := w.selected, disk := w.selected }).Inv
        (Function.update base epoch w.selected) := by
  obtain ⟨rfl, hnone⟩ := hw.start epoch hstarting
  have hother : ∀ {epoch' : ℕ} {s : NameState}, w.processes epoch' = some s →
      epoch' ≠ w.pointerEpoch := by
    rintro _ s hs rfl
    rw [hnone] at hs
    cases hs
  refine ⟨fun epoch' s hs => ?_, by simp [NameWorld.set], fun cut hcut => ?_, hw.ordered,
    fun epoch' s hs cut hcut hlt => ?_⟩
  · by_cases hepoch : epoch' = w.pointerEpoch
    · subst hepoch
      obtain rfl := Option.some.inj ((set_processes_self _).symm.trans hs)
      rw [Function.update_self]
      exact ⟨rfl, le_rfl, NameState.inv_hydrated hw.selected_pos⟩
    · rw [set_processes_of_ne _ hepoch] at hs
      rw [Function.update_of_ne hepoch]
      exact hw.process epoch' s hs
  · obtain ⟨s, hs, hmem⟩ := hw.captured cut hcut
    exact ⟨s, (set_processes_of_ne _ (hother hs)).trans hs, hmem⟩
  · by_cases hepoch : epoch' = w.pointerEpoch
    · subst hepoch
      rw [Function.update_self]
      exact hw.le_selected hcut
    · rw [set_processes_of_ne _ hepoch] at hs
      rw [Function.update_of_ne hepoch]
      exact hw.taken epoch' s hs cut hcut hlt

section

variable (hw : w.Inv base) (hprocess : w.processes s.epoch = some s)

include hw hprocess

/-- The numbers that a mirror reserves lie below the counters of every capture that covers it. -/
theorem Inv.selected_of_covered {job : MirrorJob} (hjob : s.mirror = some job)
    (hcovered : w.Covered s.epoch job.ordinal) {cfId nextSeq : ℕ}
    (hreserves : job.continuation.Reserves cfId nextSeq) :
    w.Selected s.epoch cfId nextSeq := by
  obtain ⟨cut, hcut, hepoch, hordinal⟩ := hcovered
  have hfiles := (hw.process _ s hprocess).2.2.files
  obtain ⟨mine, hmine, heq, hle⟩ := hfiles.reserving job hjob
  obtain ⟨t, ht, hmem⟩ := hw.captured cut hcut
  rw [hepoch, hprocess] at ht
  cases ht
  refine ⟨cut, hcut, hepoch, (hle cfId nextSeq hreserves).trans ?_⟩
  exact hfiles.ordered mine hmine cut hmem (heq ▸ hordinal) cfId

theorem Inv.select {cut : NameCut} (hcut : cut ∈ s.cuts) (hepoch : cut.epoch = w.pointerEpoch)
    (hordinal : ∀ last, w.history.getLast? = some last → last.epoch = cut.epoch → last.ordinal < cut.ordinal)
    : Inv base { w with history := w.history ++ [cut] } := by
  have hfiles := (hw.process _ s hprocess).2.2.files
  obtain ⟨hmine, -, hbase, -⟩ := hfiles.captured cut hcut
  have hbound : ∀ old ∈ w.history, old.epoch ≤ cut.epoch := fun old hold => by
    obtain ⟨t, ht, -⟩ := hw.captured old hold
    exact hepoch ▸ (hw.process _ t ht).2.1
  have hearlier : ∀ old ∈ w.history, old.epoch = cut.epoch → old.ordinal < cut.ordinal := by
    intro old hold heq
    obtain ⟨l, last, hl⟩ := (eq_nil_or_concat' w.history).resolve_left (ne_nil_of_mem hold)
    have hordered := hw.ordered
    have hlast := hordinal last (by simp [hl])
    rw [hl] at hold hordered hbound
    rcases mem_append.1 hold with hold | hold
    · obtain ⟨hle, -, hlt⟩ :=
        (pairwise_append.1 hordered).2.2 old hold last (mem_singleton.2 rfl)
      have hsame : last.epoch = cut.epoch :=
        le_antisymm (hbound last (by simp)) (heq ▸ hle)
      exact (hlt (heq.trans hsame.symm)).trans (hlast hsame)
    · obtain rfl := mem_singleton.1 hold
      exact hlast heq
  refine ⟨fun epoch t ht => ?_, hw.start, fun old hold => ?_, ?_, fun epoch t ht old hold hlt => ?_⟩
  · obtain ⟨heq, hle, hinv⟩ := hw.process epoch t ht
    refine ⟨heq, hle, hinv.mono ?_⟩
    rintro cfId bound ⟨old, hold, hselected⟩
    exact ⟨old, mem_append_left _ hold, hselected⟩
  · rcases mem_append.1 hold with hold | hold
    · exact hw.captured old hold
    · obtain rfl := mem_singleton.1 hold
      exact ⟨s, hmine ▸ hprocess, hcut⟩
  · refine pairwise_append.2 ⟨hw.ordered, pairwise_singleton .., ?_⟩
    intro old hold last hlast
    rw [mem_singleton.1 hlast]
    refine ⟨hbound old hold, ?_, hearlier old hold⟩
    rcases (hbound old hold).lt_or_eq with hlt | heq
    · exact (hw.taken _ s hprocess old hold (hmine ▸ hlt)).trans hbase
    · obtain ⟨t, ht, hmem⟩ := hw.captured old hold
      rw [heq, hmine, hprocess] at ht
      cases ht
      exact hfiles.ordered old hmem cut hcut (hearlier old hold heq).le
  · rcases mem_append.1 hold with hold | hold
    · exact hw.taken epoch t ht old hold hlt
    · obtain rfl := mem_singleton.1 hold
      have := (hw.process epoch t ht).2.1
      omega

/-- A process that runs goes on. -/
theorem Inv.goes (hphase : s.phase = .running) : s.Goes (base s.epoch) (w.Selected s.epoch) [] s :=
  ⟨(hw.process _ s hprocess).2.2, rfl, hphase, List.Subset.refl _⟩

theorem Inv.complete {job : MirrorJob} {result : Except MidgeError Unit} {calls : ℕ → LaunchCalls}
    {canResume : NamedPlan → Bool} {now : ℕ} (hphase : s.phase ≠ .crashed)
    (hjob : s.mirror = some job) (hresult : result = .ok () → w.Covered s.epoch job.ordinal)
    (hrecovery : s.phase = .recovering → result = .ok ()) :
    s.Continues (base s.epoch) (w.Selected s.epoch)
      ((finishMetadataMirror calls canResume now job.continuation result).after s) := by
  have hselected : result = .ok () → ∀ cfId nextSeq, job.continuation.Reserves cfId nextSeq →
      w.Selected s.epoch cfId nextSeq := fun hok _ _ hreserves =>
    hw.selected_of_covered hprocess hjob (hresult hok) hreserves
  have hinv := (hw.process _ s hprocess).2.2
  cases hcase : s.phase with
  | crashed => exact absurd hcase hphase
  | running =>
    exact (Update.Yields.after
      (keeps_finishMetadataMirror (hw.goes hprocess hcase) hselected)).continues
  | recovering =>
    obtain rfl := hrecovery hcase
    obtain ⟨cfId, first, nextSeq, hcontinuation, -⟩ := (hinv.recovery hcase).awaited job hjob
    have hreserves : job.continuation.Reserves cfId nextSeq := hcontinuation ▸ ⟨rfl, rfl⟩
    rw [hcontinuation]
    exact ⟨hinv.finish_recovery hcase hjob hcontinuation (hselected rfl _ _ hreserves), rfl,
      List.Subset.refl _⟩

end

theorem Inv.step (hw : w.Inv base) (hstep : w.Step w') : ∃ base', w'.Inv base' := by
  cases hstep with
  | claim hepoch => exact ⟨base, hw.claim hepoch⟩
  | hydrate hstarting => exact ⟨_, hw.hydrate hstarting⟩
  | recover hprocess hphase hok =>
    exact ⟨base, hw.set hprocess
      (continues_takeRecoveryName (hw.process _ _ hprocess).2.2 hphase hok)⟩
  | run hprocess hphase hmirror =>
    have hinv := (hw.process _ _ hprocess).2.2.set_phase .running (by decide)
    exact ⟨base, hw.set hprocess ⟨hinv, rfl, List.Subset.refl _⟩⟩
  | turn turn hprocess hphase =>
    exact ⟨base, hw.set hprocess
      (Update.Yields.after (keeps_run turn (hw.goes hprocess hphase))).continues⟩
  | complete hprocess hphase hjob hresult hrecovery =>
    exact ⟨base, hw.set hprocess (hw.complete hprocess hphase hjob hresult hrecovery)⟩
  | selects hprocess hcut hepoch hordinal => exact ⟨base, hw.select hprocess hcut hepoch hordinal⟩
  | crash hprocess =>
    have hinv := (hw.process _ _ hprocess).2.2.set_phase .crashed (by decide)
    exact ⟨base, hw.set hprocess ⟨hinv, rfl, List.Subset.refl _⟩⟩

theorem Reachable.inv (hw : w.Reachable) : ∃ base, w.Inv base := by
  induction hw with
  | refl => exact ⟨fun _ _ => none, inv_empty⟩
  | tail _ hstep ih =>
    obtain ⟨base, hinv⟩ := ih
    exact hinv.step hstep

/-! ## Names -/

/-- In every run with any number of processes, crashes and mirrors that fail, a name is given to
    one output at most. A process hands out the numbers of a family in order, and a later one only
    hands out numbers past those that an earlier one has given to an output. -/
theorem sst_names_unique (hw : w.Reachable) :
    (∀ epoch s, w.processes epoch = some s → s.admitted.Nodup ∧ s.admitted ⊆ s.handed ∧
      s.handed.Pairwise fun name name' => name.1 = name'.1 → name.2 < name'.2) ∧
    ∀ epoch s epoch' s', w.processes epoch = some s → w.processes epoch' = some s' →
      epoch < epoch' → ∀ cfId number number', (cfId, number) ∈ s.admitted →
        (cfId, number') ∈ s'.handed → number < number' := by
  obtain ⟨base, hinv⟩ := hw.inv
  constructor
  · intro epoch s hs
    have hprocess := (hinv.process epoch s hs).2.2
    refine ⟨?_, fun name hname => ?_, hprocess.numbers.increasing⟩
    · exact (nodup_append.1 (nodup_append.1 hprocess.admissions.nodup).2.1).2.1
    · exact hprocess.admissions.known name
        (mem_append_right _ (mem_append_right _ hname))
  · intro epoch s epoch' s' hs hs' hlt cfId number number' hadmitted hhanded
    obtain ⟨bound, hbound, cut, hcut, hepoch, hle⟩ :=
      (hinv.process epoch s hs).2.2.admissions.covered _ hadmitted
    calc number < bound := hbound
      _ ≤ cut.counters.next cfId := hle
      _ ≤ (base epoch').next cfId := hinv.taken epoch' s' hs' cut hcut (hepoch ▸ hlt) cfId
      _ ≤ number' := ((hinv.process epoch' s' hs').2.2.numbers.bounded _ hhanded).1

/-! ## Two runs -/

theorem Reachable.step (hw : w.Reachable) (hstep : w.Step w') : w'.Reachable := hw.tail hstep

/-- A process that has taken over the counters, and runs. -/
def running (epoch : ℕ) (counters : SstCounters) : NameState :=
  { epoch, manifest := counters, disk := counters, phase := .running }

/-- A process starts, and has nothing to recover. -/
def start (w : NameWorld) (epoch : ℕ) : NameWorld :=
  ({ w with pointerEpoch := epoch, starting := none } : NameWorld).set (running epoch w.selected)

theorem Reachable.start (hw : w.Reachable) (epoch : ℕ) (hepoch : w.pointerEpoch < epoch) :
    (w.start epoch).Reachable := by
  have hrun := ((hw.tail (.claim hepoch)).tail (.hydrate rfl)).tail
    (.run (set_processes_self _) rfl rfl)
  have heq : ∀ (w : NameWorld) (s : NameState), (w.set s).set { s with phase := .running } =
      w.set { s with phase := .running } := fun w s => by simp [NameWorld.set]
  rw [heq] at hrun
  exact hrun

theorem Reachable.turn (hw : w.Reachable) (turn : NameTurn)
    (hprocess : w.processes s.epoch = some s) (hphase : s.phase = .running) :
    (w.set (turn.run.after s)).Reachable := hw.step (.turn turn hprocess hphase)

/-- The first flush of a process waits for the reservation of its name. -/
def flushing : NameState :=
  (NameTurn.flush {} false ⟨0, 1, 0, 5⟩).run.after
    ((NameTurn.freeze 0 0 1 5).run.after (running 1 fun _ => none))

/-- The flush gets its name when the reservation has been selected, and the next process
    compacts. -/
theorem sst_names_unique_flush : ∃ (w : NameWorld) (s s' : NameState), w.Reachable ∧
    w.processes 1 = some s ∧ w.processes 2 = some s' ∧ (0, 1) ∈ s.admitted ∧
      (0, 17) ∈ s'.handed ∧ 1 < 17 := by
  have hstart := Reachable.start (w := {}) .refl 1 (by decide)
  have hfreeze := hstart.turn (.freeze 0 0 1 5) (set_processes_self _) rfl
  have hflush := hfreeze.turn (.flush {} false ⟨0, 1, 0, 5⟩) (set_processes_self _) rfl
  have hselect := hflush.step (.selects (s := flushing) (set_processes_self _)
    (mem_singleton.2 rfl) rfl fun _ h => nomatch h)
  have hcomplete := hselect.step (@Step.complete _ flushing ⟨1, .sstReservation 0 17⟩ (.ok ())
    (fun _ => {}) (fun _ => true) 0 rfl (by decide) rfl
    (fun _ => ⟨_, mem_singleton.2 rfl, rfl, le_rfl⟩) fun _ => rfl)
  have hnamed := hcomplete.turn (.flush {} false ⟨0, 1, 0, 5⟩) (set_processes_self _) rfl
  have hnext := hnamed.start 2 (by decide)
  have hcompact := hnext.turn (.compact {} 0) (set_processes_self _) rfl
  refine ⟨_, _, _, hcompact, rfl, rfl, by decide, by decide, ?_⟩
  exact (sst_names_unique hcompact).2 1 _ 2 _ rfl rfl (by decide) 0 1 17 (by decide) (by decide)

/-- A compaction takes a number, and the process crashes before it is reserved. The next process
    hands out the number again. -/
theorem sst_name_repeated : ∃ w : NameWorld, w.Reachable ∧
    (∃ s, w.processes 1 = some s ∧ (0, 1) ∈ s.handed) ∧
    (∃ s, w.processes 2 = some s ∧ (0, 1) ∈ s.handed) := by
  have hstart := Reachable.start (w := {}) .refl 1 (by decide)
  have hcompact := hstart.turn (.compact {} 0) (set_processes_self _) rfl
  have hcrash := hcompact.step (.crash (set_processes_self _))
  have hnext := hcrash.start 2 (by decide)
  have hagain := hnext.turn (.compact {} 0) (set_processes_self _) rfl
  exact ⟨_, hagain, ⟨_, rfl, by decide⟩, ⟨_, rfl, by decide⟩⟩

end NameWorld

end Midge
