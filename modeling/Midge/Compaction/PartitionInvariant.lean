import Midge.Compaction.PartitionSpec

/-!
# The invariant of the partition writer

The writer takes the events in key order, one key at a time. After the events
`P`, among all those `E` of the merge, with the versions `W` written so far
(`PartitionInv`):

* the active tombstones are the ranges started and not ended in `P`;
* the partition's tombstones are live ranges started in `P`, among them all
  that reach past the lower bound of the partition;
* the finished outputs cover the keys below that bound exactly as the live
  ranges do, and follow one another in key order.

A roll keeps the invariant (`PartitionInv.rollPartition`), wherever it is made
between the keys of `P` and those to come, and writing a group completes its
events (`PartitionInv.observe_write`). What the versions `W` are is left to the
two loops that use the writer.
-/

namespace Midge

open CompactionEvent List Exec EventMergeIterator RangeTombstoneTracker

/-! ## Newest versions -/

theorem checkSameSequence_content {l : List CompactionVersion}
    (hs : l.Pairwise fun v w => w.seq ≤ v.seq) (h : checkSameSequence l = .ok ()) :
    ∀ v ∈ l, ∀ w ∈ l, v.seq = w.seq → v.content = w.content := by
  induction l with
  | nil => simp
  | cons a l ih =>
    cases l with
    | nil => simp
    | cons b l =>
      rw [checkSameSequence] at h
      split_ifs at h with hc
      rw [pairwise_cons] at hs
      have ih := ih hs.2 h
      -- Versions of the sequence of the head follow it without a gap.
      have head : ∀ w ∈ b :: l, a.seq = w.seq → a.content = w.content := by
        intro w hw haw
        have hba : b.seq = a.seq := by
          refine le_antisymm (hs.1 b mem_cons_self) ?_
          rcases mem_cons.1 hw with rfl | hw
          · exact haw.le
          · exact haw.le.trans ((pairwise_cons.1 hs.2).1 w hw)
        have hab : a.content = b.content := by
          by_contra hne
          exact hc ⟨hba.symm, hne⟩
        exact hab.trans (ih b mem_cons_self w hw (hba.trans haw))
      intro v hv w hw hvw
      rcases mem_cons.1 hv with rfl | hv'
      · rcases mem_cons.1 hw with rfl | hw'
        · rfl
        · exact head w hw' hvw
      · rcases mem_cons.1 hw with rfl | hw'
        · exact (head v hv' hvw.symm).symm
        · exact ih v hv' w hw' hvw

theorem RawSstVersion.eq_of_content {v w : RawSstVersion} (hk : v.key = w.key)
    (hs : v.seq = w.seq) (hc : v.content = w.content) : v = w := by
  obtain ⟨_, _, _, _, _⟩ := v
  obtain ⟨_, _, _, _, _⟩ := w
  simp_all [RawSstVersion.content]

variable {v : CompactionVersion}

section Newest

variable {events : List CompactionEvent} {selected : Option CompactionVersion}

theorem selectNewestVersion_ok (h : selectNewestVersion events = .ok selected) :
    ∃ l : List CompactionVersion, l.Perm (events.filterMap version?) ∧
      (l.Pairwise fun v w => w.seq ≤ v.seq) ∧ checkSameSequence l = .ok () ∧
      selected = l.head? := by
  simp only [selectNewestVersion] at h
  set l := (events.filterMap version?).insertionSort fun left right => right.seq ≤ left.seq
  have hs : l.Pairwise fun v w => w.seq ≤ v.seq :=
    haveI : Std.Total fun v w : CompactionVersion => w.seq ≤ v.seq := ⟨fun _ _ => le_total _ _⟩
    haveI : IsTrans CompactionVersion fun v w => w.seq ≤ v.seq := ⟨fun _ _ _ h h' => h'.trans h⟩
    pairwise_insertionSort _ _
  cases hc : checkSameSequence l with
  | error e => rw [hc] at h; cases h
  | ok _ =>
    rw [hc] at h
    cases h
    exact ⟨l, perm_insertionSort _ _, hs, hc, rfl⟩

/-- The selected version is the newest of the group. -/
theorem newest_of_selectNewestVersion (h : selectNewestVersion events = .ok (some v)) :
    version v ∈ events ∧ ∀ w, version w ∈ events → w.seq ≤ v.seq := by
  obtain ⟨l, hp, hs, -, hl⟩ := selectNewestVersion_ok h
  have hmem : ∀ w, w ∈ l ↔ version w ∈ events := fun w => by
    rw [hp.mem_iff, mem_filterMap]
    simp
  cases l with
  | nil => cases hl
  | cons a l =>
    cases hl
    refine ⟨(hmem _).1 mem_cons_self, fun w hw => ?_⟩
    rcases mem_cons.1 ((hmem w).2 hw) with rfl | hw
    · exact le_rfl
    · exact (pairwise_cons.1 hs).1 w hw

theorem not_mem_of_selectNewestVersion_none (h : selectNewestVersion events = .ok none) :
    ∀ w, version w ∉ events := by
  obtain ⟨l, hp, -, -, hl⟩ := selectNewestVersion_ok h
  intro w hw
  have : w ∈ l := hp.mem_iff.2 (mem_filterMap.2 ⟨_, hw, rfl⟩)
  cases l with
  | nil => cases this
  | cons a l => cases hl

/-- Versions of a group at one sequence are the same. -/
theorem unique_of_selectNewestVersion (h : selectNewestVersion events = .ok selected) {key : Key}
    (hkey : ∀ e ∈ events, e.key = key) {w : CompactionVersion} (hv : version v ∈ events)
    (hw : version w ∈ events) (hvw : v.seq = w.seq) : v = w := by
  obtain ⟨l, hp, hs, hc, -⟩ := selectNewestVersion_ok h
  have hmem : ∀ u, version u ∈ events → u ∈ l := fun u hu =>
    hp.mem_iff.2 (mem_filterMap.2 ⟨_, hu, rfl⟩)
  exact RawSstVersion.eq_of_content ((hkey _ hv).trans (hkey _ hw).symm) hvw
    (checkSameSequence_content hs hc v (hmem v hv) w (hmem w hw) hvw)

end Newest

/-! ## The invariant -/

variable {gc : TombstoneGcPolicy} {E P Q G : List CompactionEvent} {W : List CompactionVersion}
  {key : Key} {w w' : PartitionWork}

/-- A live range of `P` covers `k` at sequence `c`. -/
def LiveCover (gc : TombstoneGcPolicy) (P : List CompactionEvent) (k : Key) (c : ℕ) : Prop :=
  ∃ t, rangeStart t ∈ P ∧ rangeTombstoneIsObsolete t gc = false ∧ t.Covers k ∧ t.seq = c

/-- Some output covers `k` at sequence `c`. -/
def OutputCover (outputs : List FinishedPartition) (k : Key) (c : ℕ) : Prop :=
  ∃ o ∈ outputs, ∃ t ∈ o.contents.tombstones, t.Covers k ∧ t.seq = c

/-- The outputs follow one another in key order. -/
def OutputsOrdered (outputs : List FinishedPartition) : Prop :=
  outputs.Pairwise fun a b => ∀ k k', a.contents.Holds k → b.contents.Holds k' → k < k'

/-- The invariant of the writer, after the events `P` among `E` and the range
    ends `Q`, with the versions `W` written. -/
structure PartitionInv (gc : TombstoneGcPolicy) (E P Q : List CompactionEvent)
    (W : List CompactionVersion) (w : PartitionWork) : Prop where
  live : ∀ t, t ∈ w.tombstones.active.live ↔
    rangeStart t ∈ P ∧ rangeEnd t ∉ Q ∧ rangeTombstoneIsObsolete t gc = false
  obsolete : ∀ t, t ∈ w.tombstones.active.obsolete ↔
    rangeStart t ∈ P ∧ rangeEnd t ∉ Q ∧ rangeTombstoneIsObsolete t gc = true
  sorted : w.tombstones.active.obsolete.Pairwise
    fun x y => activeTombstoneKey x ≤ activeTombstoneKey y
  started : ∀ t ∈ w.tombstones.partition.entries,
    rangeStart t ∈ P ∧ rangeTombstoneIsObsolete t gc = false
  reaching : ∀ t, rangeStart t ∈ P → rangeTombstoneIsObsolete t gc = false →
    (∀ b ∈ w.roller.lowerBound, b < t.stop) → t ∈ w.tombstones.partition.entries
  covers : ∀ k c, OutputCover w.outputs k c ↔
    ∃ b ∈ w.roller.lowerBound, k < b ∧ LiveCover gc P k c
  versions : (w.outputs.flatMap fun o => o.contents.versions) ++ w.roller.writer.versions = W
  written : ∀ v ∈ W, version v ∈ P
  writtenSorted : (W.map RawSstVersion.key).Pairwise (· ≤ ·)
  unique : ∀ u v, version u ∈ P → version v ∈ P → u.key = v.key → u.seq = v.seq → u = v
  lower : ∀ b ∈ w.roller.lowerBound, ∀ e ∈ E, e ∉ P → b ≤ e.key
  ordered : OutputsOrdered w.outputs
  below : ∀ o ∈ w.outputs, ∀ k, o.contents.Holds k → ∃ b ∈ w.roller.lowerBound, k < b
  above : ∀ v ∈ w.roller.writer.versions, ∀ b ∈ w.roller.lowerBound, b ≤ v.key
  no_tombstones : w.roller.writer.tombstones = []
  count : w.roller.pointCount = 0 → w.roller.writer.versions = []

/-- `G` are the events of `E` at the key that comes right after those of `P`. -/
structure GroupAt (E P G : List CompactionEvent) (key : Key) : Prop where
  nonempty : ∃ e, e ∈ G
  mem : ∀ e ∈ G, e ∈ E ∧ e.key = key
  before : ∀ e ∈ P, e ∈ E ∧ e.key < key
  after : ∀ e ∈ E, e ∈ P ∨ e ∈ G ∨ key < e.key

variable {e : CompactionEvent}

namespace GroupAt

variable (hG : GroupAt E P G key)

include hG

theorem mem_of_key_eq (he : e ∈ E) (hk : e.key = key) : e ∈ G := by
  rcases hG.after e he with h | h | h
  · exact absurd hk (hG.before e h).2.ne
  · exact h
  · exact absurd hk h.ne'

theorem not_mem_append (hk : key < e.key) : e ∉ P ++ G := by
  intro he
  rcases mem_append.1 he with h | h
  · exact lt_asymm hk (hG.before e h).2
  · exact hk.ne' (hG.mem e h).2

theorem key_le_of_not_mem (he : e ∈ E) (hP : e ∉ P) : key ≤ e.key := by
  rcases hG.after e he with h | h | h
  · exact absurd h hP
  · exact (hG.mem e h).2.ge
  · exact h.le

theorem lowerBound_le (h : PartitionInv gc E P Q W w) : ∀ b ∈ w.roller.lowerBound, b ≤ key := by
  obtain ⟨e, he⟩ := hG.nonempty
  obtain ⟨hE, hk⟩ := hG.mem e he
  intro b hb
  rw [← hk]
  exact h.lower b hb e hE fun hP => (hG.before e hP).2.ne hk

end GroupAt

variable {finished : Option FinishedPartition} {outputs : List FinishedPartition}
  {upper : Option Key}

namespace PartitionInv

/-- Nothing has been read or written at first. -/
theorem init {roller : PartitionRoller} (hlower : roller.lowerBound = none)
    (hwriter : roller.writer = .empty) : PartitionInv gc E [] [] [] ⟨roller, {}, []⟩ := by
  constructor <;> simp [hlower, hwriter, OutputCover, LiveCover, OutputsOrdered, SstContents.empty]

/-- Retiring the ranges that end at the group. -/
theorem advanceToKey (h : PartitionInv gc E P Q W w) :
    PartitionInv gc E P (Q ++ G) W { w with tombstones := w.tombstones.advanceToKey G } := by
  have hends : ∀ t, t ∈ G.filterMap rangeEnd? ↔ rangeEnd t ∈ G := fun t => by
    rw [mem_filterMap]
    simp
  have hremove := @ActiveTombstones.foldl_remove (G.filterMap rangeEnd?) w.tombstones.active
  refine { h with live := fun t => ?_, obsolete := fun t => ?_, sorted := ?_ }
  · simp only [RangeTombstoneTracker.advanceToKey, hremove.1, mem_filter, h.live, hends,
      decide_eq_true_eq, mem_append]
    tauto
  · simp only [RangeTombstoneTracker.advanceToKey, hremove.2, mem_filter, h.obsolete, hends,
      decide_eq_true_eq, mem_append]
    tauto
  · simp only [RangeTombstoneTracker.advanceToKey, hremove.2]
    exact h.sorted.filter _

/-! ### Rolls -/

theorem outputCover_append {k : Key} {c : ℕ} :
    OutputCover (outputs ++ finished.toList) k c ↔ OutputCover outputs k c ∨
      ∃ t ∈ finished.toList.flatMap fun f => f.contents.tombstones, t.Covers k ∧ t.seq = c := by
  simp only [OutputCover, mem_append, or_and_right, exists_or, mem_flatMap]
  refine or_congr_right ⟨?_, ?_⟩
  · rintro ⟨o, ho, t, ht, h⟩
    exact ⟨t, ⟨o, ho, ht⟩, h⟩
  · rintro ⟨t, ⟨o, ho, ht⟩, h⟩
    exact ⟨o, ho, t, ht, h⟩

/-- What a partition closed at `upper` holds. -/
structure Finished (w : PartitionWork) (upper : Option Key) (finished : Option FinishedPartition) :
    Prop where
  versions : (finished.toList.flatMap fun f => f.contents.versions) = w.roller.writer.versions
  tombstones : (finished.toList.flatMap fun f => f.contents.tombstones) =
    w.tombstones.partition.entries.filterMap (·.clip w.roller.lowerBound upper)

section

variable (h : PartitionInv gc E P Q W w)

include h

theorem finished_of_returns
    (hf : Returns (w.roller.finishCurrent w.tombstones upper) finished) :
    Finished w upper finished :=
  have := of_returns_finishPartition h.no_tombstones h.count hf
  ⟨this.1, this.2⟩

/-- A partition closed at `upper` covers its keys as the live ranges do. -/
theorem covers_of_finish (hupper : ∀ b ∈ w.roller.lowerBound, ∀ u ∈ upper, b ≤ u)
    (hf : Finished w upper finished) (k : Key) (c : ℕ) :
    OutputCover (w.outputs ++ finished.toList) k c ↔
      (∀ u ∈ upper, k < u) ∧ LiveCover gc P k c := by
  have hclip : (∃ t ∈ w.tombstones.partition.entries.filterMap
        (·.clip w.roller.lowerBound upper), t.Covers k ∧ t.seq = c) ↔
      ∃ t ∈ w.tombstones.partition.entries, t.Covers k ∧ t.seq = c ∧
        (∀ b ∈ w.roller.lowerBound, b ≤ k) ∧ ∀ u ∈ upper, k < u := by
    simp only [mem_filterMap]
    constructor
    · rintro ⟨t', ⟨t, ht, hc⟩, h⟩
      exact ⟨t, ht, RangeTombstone.covers_clip.1 ⟨t', hc, h⟩⟩
    · rintro ⟨t, ht, h⟩
      obtain ⟨t', hc, h⟩ := RangeTombstone.covers_clip.2 h
      exact ⟨t', ⟨t, ht, hc⟩, h⟩
  rw [outputCover_append, hf.tombstones, hclip, h.covers]
  constructor
  · rintro (⟨b, hb, hkb, hlive⟩ | ⟨t, ht, hcov, hseq, -, hu⟩)
    · exact ⟨fun u hu => hkb.trans_le (hupper b hb u hu), hlive⟩
    · obtain ⟨hP, hlive⟩ := h.started t ht
      exact ⟨hu, t, hP, hlive, hcov, hseq⟩
  · rintro ⟨hu, t, hP, hlive, hcov, hseq⟩
    by_cases hlb : ∃ b ∈ w.roller.lowerBound, k < b
    · obtain ⟨b, hb, hkb⟩ := hlb
      exact .inl ⟨b, hb, hkb, t, hP, hlive, hcov, hseq⟩
    · have hlb' : ∀ b ∈ w.roller.lowerBound, b ≤ k := fun b hb =>
        not_lt.1 fun hkb => hlb ⟨b, hb, hkb⟩
      -- The range reaches past the lower bound, so that the partition has it.
      exact .inr ⟨t, h.reaching t hP hlive fun b hb => (hlb' b hb).trans_lt hcov.2,
        hcov, hseq, hlb', hu⟩

/-- A finished partition holds keys between its bounds only. -/
theorem bounds_of_finish (hupper : ∀ u ∈ upper, ∀ e ∈ P, e.key < u)
    (hf : Finished w upper finished) :
    ∀ f ∈ finished.toList, ∀ k, f.contents.Holds k →
      (∀ b ∈ w.roller.lowerBound, b ≤ k) ∧ ∀ u ∈ upper, k < u := by
  intro f hmem k hk
  rcases hk with ⟨v, hv, rfl⟩ | ⟨t, ht, hcov⟩
  · have hv : v ∈ w.roller.writer.versions :=
      hf.versions ▸ mem_flatMap.2 ⟨f, hmem, hv⟩
    have hW : v ∈ W := h.versions ▸ mem_append_right _ hv
    exact ⟨h.above v hv, fun u hu => hupper u hu _ (h.written v hW)⟩
  · have ht : t ∈ w.tombstones.partition.entries.filterMap (·.clip w.roller.lowerBound upper) :=
      hf.tombstones ▸ mem_flatMap.2 ⟨f, hmem, ht⟩
    obtain ⟨t', -, hclip⟩ := mem_filterMap.1 ht
    exact (RangeTombstone.covers_clip.1 ⟨t, hclip, hcov, rfl⟩).2.2

/-- The outputs stay in key order when the partition is closed. -/
theorem ordered_of_finish (hupper : ∀ u ∈ upper, ∀ e ∈ P, e.key < u)
    (hf : Finished w upper finished) : OutputsOrdered (w.outputs ++ finished.toList) := by
  refine pairwise_append.2 ⟨h.ordered, ?_, fun o ho f hmem k k' hk hk' => ?_⟩
  · cases finished <;> simp
  · obtain ⟨b, hb, hkb⟩ := h.below o ho k hk
    exact hkb.trans_le ((h.bounds_of_finish hupper hf f hmem k' hk').1 b hb)

end

theorem of_returns_recordFinishedPartition {outputs' : List FinishedPartition}
    (h : Returns (recordFinishedPartition finished outputs) outputs') :
    outputs' = outputs ++ finished.toList := by
  cases finished with
  | none => simpa [recordFinishedPartition] using h
  | some f =>
    exact returns_pure.1 (returns_seq h :)

/-- What a roll does to the outputs and the writer. -/
structure Rolled (w w' : PartitionWork) (b : Key) : Prop where
  outputs : ∃ finished, Finished w (some b) finished ∧ w'.outputs = w.outputs ++ finished.toList
  roller : w'.roller.lowerBound = some b ∧ w'.roller.writer = .empty
  limit : w'.roller.outputSizeLimit = w.roller.outputSizeLimit
  active : w'.tombstones.active = w.tombstones.active
  entries : ∀ t, t ∈ w'.tombstones.partition.entries ↔ t ∈ w.tombstones.active.live

theorem rolled_of_returns (h : PartitionInv gc E P Q W w) {b : Key}
    (hr : Returns (Midge.rollPartition w b) w') : Rolled w w' b := by
  obtain ⟨finished, hf, hr⟩ := returns_bind hr
  obtain ⟨outputs, ho, hr⟩ := returns_bind hr
  obtain ⟨⟨roller, tombstones⟩, hnext, hr⟩ := returns_bind hr
  cases returns_pure.1 hr
  obtain ⟨_, -, hf⟩ := returns_bind hf
  obtain rfl := of_returns_recordFinishedPartition ho
  rw [PartitionRoller.startNextPartition] at hnext
  obtain ⟨-, hnext⟩ := returns_ite_fail.1 hnext
  obtain ⟨_, -, hnext⟩ := returns_bind hnext
  obtain ⟨tracker, hcarry, hnext⟩ := returns_bind hnext
  cases returns_pure.1 hnext
  obtain ⟨hactive, hentries⟩ := of_returns_carryLiveTombstones hcarry
  exact ⟨⟨finished, h.finished_of_returns hf, rfl⟩, ⟨rfl, rfl⟩, rfl, hactive, hentries⟩

/-- Rolling keeps the invariant, at a boundary `b` between the keys of `P` and
    those to come. -/
theorem rollPartition (h : PartitionInv gc E P Q W w) {b : Key} (hbefore : ∀ e ∈ P, e.key < b)
    (hafter : ∀ e ∈ E, e ∉ P → b ≤ e.key) (hends : ∀ e ∈ Q, e.key ≤ b)
    (hlower : ∀ b' ∈ w.roller.lowerBound, b' ≤ b)
    (hr : Returns (Midge.rollPartition w b) w') :
    PartitionInv gc E P Q W w' ∧ w'.roller.lowerBound = some b := by
  obtain ⟨⟨finished, hf, houtputs⟩, ⟨hbound, hwriter⟩, -, hactive, hentries⟩ := h.rolled_of_returns hr
  have hupper : ∀ u ∈ some b, ∀ e ∈ P, e.key < u := by
    rintro _ ⟨⟩
    exact hbefore
  refine ⟨{
    live := by simpa only [hactive] using h.live
    obsolete := by simpa only [hactive] using h.obsolete
    sorted := by simpa only [hactive] using h.sorted
    started := fun t ht => ?_
    reaching := fun t hP hlive hstop => ?_
    covers := fun k c => ?_
    versions := ?_
    written := h.written
    writtenSorted := h.writtenSorted
    unique := h.unique
    lower := ?_
    ordered := houtputs ▸ h.ordered_of_finish hupper hf
    below := fun o ho k hk => ⟨b, hbound, ?_⟩
    above := by simp [hwriter, SstContents.empty]
    no_tombstones := by rw [hwriter]; rfl
    count := fun _ => by rw [hwriter]; rfl }, hbound⟩
  · obtain ⟨hP, -, hlive⟩ := (h.live t).1 ((hentries t).1 ht)
    exact ⟨hP, hlive⟩
  · have hopen : rangeEnd t ∉ Q := fun hQ => (hstop b hbound).not_ge (hends _ hQ)
    exact (hentries t).2 ((h.live t).2 ⟨hP, hopen, hlive⟩)
  · rw [houtputs, h.covers_of_finish (fun b' hb' u hu => by cases hu; exact hlower b' hb') hf]
    simp [hbound]
  · rw [houtputs, hwriter, flatMap_append, hf.versions, h.versions]
    exact append_nil W
  · rw [hbound]
    rintro _ ⟨⟩
    exact hafter
  · rw [houtputs] at ho
    rcases mem_append.1 ho with ho | ho
    · obtain ⟨b', hb', hk⟩ := h.below o ho k hk
      exact hk.trans_le (hlower b' hb')
    · exact (h.bounds_of_finish hupper hf o ho k hk).2 b rfl

/-- Rolling at the key of a group. -/
theorem rollPartition_group (h : PartitionInv gc E P (P ++ G) W w) (hG : GroupAt E P G key)
    (hr : Returns (Midge.rollPartition w key) w') :
    PartitionInv gc E P (P ++ G) W w' ∧ w'.roller.lowerBound = some key := by
  refine h.rollPartition (fun e he => (hG.before e he).2) (fun e => hG.key_le_of_not_mem)
    (fun e he => ?_) (hG.lowerBound_le h) hr
  rcases mem_append.1 he with he | he
  exacts [(hG.before e he).2.le, (hG.mem e he).2.le]

/-! ### Key groups -/

theorem of_returns_writeSelected {r r' : PartitionRoller} (h : Returns (r.writeSelected v) r') :
    r'.lowerBound = r.lowerBound ∧ r'.pointCount ≠ 0 ∧
      r'.writer.versions = r.writer.versions ++ [v] ∧
      r'.writer.tombstones = r.writer.tombstones := by
  obtain ⟨w, hw, h⟩ := returns_bind h
  cases returns_pure.1 (returns_seq hw :)
  cases returns_pure.1 h
  refine ⟨rfl, by simp [satAdd, usizeMax], ?_, rfl⟩
  have hdelete : decide ((if v.isTombstone then EntryType.delete else .put) = .delete) =
      v.isTombstone := by
    cases v.isTombstone <;> rfl
  simp only [hdelete]

/-- The versions `vs` were written to the partition. -/
structure Wrote (vs : List CompactionVersion) (r r' : PartitionRoller) : Prop where
  lowerBound : r'.lowerBound = r.lowerBound
  count : r'.pointCount = 0 → r.pointCount = 0 ∧ vs = []
  versions : r'.writer.versions = r.writer.versions ++ vs
  tombstones : r'.writer.tombstones = r.writer.tombstones

/-- Observing the ranges and writing the versions of a group completes its
    events. -/
theorem observe_write (h : PartitionInv gc E P (P ++ G) W w) (hG : GroupAt E P G key)
    {tombstones : RangeTombstoneTracker} {pending : Option PendingTombstoneBound}
    (ht : Returns (w.tombstones.observeStarts gc pending (rangeStarts G)) tombstones)
    {vs : List CompactionVersion} (hvs : ∀ v ∈ vs, version v ∈ G)
    (hunique : ∀ u v, version u ∈ G → version v ∈ G → u.seq = v.seq → u = v)
    {roller : PartitionRoller} (hr : Wrote vs w.roller roller) :
    PartitionInv gc E (P ++ G) (P ++ G) (W ++ vs)
      { w with roller := roller, tombstones := tombstones } := by
  obtain ⟨hl, ho, hs, he⟩ := of_returns_observeStarts ht
    (fun t ht => ((h.live t).1 ht).2.2) (fun t ht => ((h.obsolete t).1 ht).2.2) h.sorted
  have hlt := lt_of_returns_observeStarts ht
  have hstart : ∀ t, t ∈ rangeStarts G ↔ rangeStart t ∈ G := fun t => by
    rw [rangeStarts, mem_filterMap]
    simp
  -- A range that starts at the group ends after it, as it is not empty.
  have hopen : ∀ t, rangeStart t ∈ G → rangeEnd t ∉ P ++ G := fun t ht => by
    refine hG.not_mem_append ?_
    rw [← (hG.mem _ ht).2]
    exact hlt t ((hstart t).2 ht)
  have hactive : ∀ t (p : Prop), (rangeStart t ∈ G ∧ p) ∨
        (rangeStart t ∈ P ∧ rangeEnd t ∉ P ++ G ∧ p) ↔
      rangeStart t ∈ P ++ G ∧ rangeEnd t ∉ P ++ G ∧ p := by
    intro t p
    constructor
    · rintro (⟨hg, hp⟩ | ⟨hP, hQ, hp⟩)
      · exact ⟨mem_append_right _ hg, hopen t hg, hp⟩
      · exact ⟨mem_append_left _ hP, hQ, hp⟩
    · rintro ⟨hPG, hQ, hp⟩
      rcases mem_append.1 hPG with hP | hg
      · exact .inr ⟨hP, hQ, hp⟩
      · exact .inl ⟨hg, hp⟩
  have hcover : ∀ b ∈ w.roller.lowerBound, ∀ k c, k < b →
      (LiveCover gc P k c ↔ LiveCover gc (P ++ G) k c) := by
    intro b hb k c hkb
    constructor
    · rintro ⟨t, hP, h⟩
      exact ⟨t, mem_append_left _ hP, h⟩
    · rintro ⟨t, hPG, hlive, hcov, hseq⟩
      rcases mem_append.1 hPG with hP | hg
      · exact ⟨t, hP, hlive, hcov, hseq⟩
      · -- The range starts at the key of the group, past `k`.
        have hstart : t.start = key := (hG.mem _ hg).2
        exact absurd (hcov.1.trans_lt (hkb.trans_le (hG.lowerBound_le h b hb))) hstart.not_lt
  refine {
    live := fun t => by rw [hl, h.live, hstart, hactive]
    obsolete := fun t => by rw [ho, h.obsolete, hstart, hactive]
    sorted := hs
    started := fun t ht => ?_
    reaching := fun t hPG hlive hstop => ?_
    covers := fun k c => ?_
    versions := by rw [hr.versions, ← append_assoc, h.versions]
    written := fun v hv => ?_
    writtenSorted := ?_
    unique := fun u v hu hv hk hseq => ?_
    lower := fun b hb e hE heP => ?_
    ordered := h.ordered
    below := by rw [hr.lowerBound]; exact h.below
    above := fun v hv b hb => ?_
    no_tombstones := hr.tombstones.trans h.no_tombstones
    count := fun h₀ => ?_ }
  · rcases (he t).1 ht with ⟨hg, hlive⟩ | ht
    · exact ⟨mem_append_right _ ((hstart t).1 hg), hlive⟩
    · obtain ⟨hP, hlive⟩ := h.started t ht
      exact ⟨mem_append_left _ hP, hlive⟩
  · rcases mem_append.1 hPG with hP | hg
    · exact (he t).2 (.inr (h.reaching t hP hlive (hr.lowerBound ▸ hstop)))
    · exact (he t).2 (.inl ⟨(hstart t).2 hg, hlive⟩)
  · simp only [h.covers, hr.lowerBound]
    refine exists_congr fun b => and_congr_right fun hb => and_congr_right fun hkb => ?_
    exact hcover b hb k c hkb
  · rcases mem_append.1 hv with hv | hv
    · exact mem_append_left _ (h.written v hv)
    · exact mem_append_right _ (hvs v hv)
  · have hkey : ∀ v ∈ vs, v.key = key := fun v hv => (hG.mem _ (hvs v hv)).2
    rw [map_append, pairwise_append]
    refine ⟨h.writtenSorted, pairwise_map.2 (pairwise_of_forall_mem_list fun u hu v hv => ?_),
      ?_⟩
    · rw [hkey u hu, hkey v hv]
    · simp only [mem_map, forall_exists_index, and_imp, forall_apply_eq_imp_iff₂]
      intro u hu v hv
      rw [hkey v hv]
      exact (hG.before _ (h.written u hu)).2.le
  · rcases mem_append.1 hu with huP | huG
    · rcases mem_append.1 hv with hvP | hvG
      · exact h.unique u v huP hvP hk hseq
      · exact absurd (hk.trans (hG.mem _ hvG).2) (hG.before _ huP).2.ne
    · rcases mem_append.1 hv with hvP | hvG
      · exact absurd (hk.symm.trans (hG.mem _ huG).2) (hG.before _ hvP).2.ne
      · exact hunique u v huG hvG hseq
  · exact h.lower b (hr.lowerBound ▸ hb) e hE fun hP => heP (mem_append_left _ hP)
  · rw [hr.versions] at hv
    rw [hr.lowerBound] at hb
    rcases mem_append.1 hv with hv | hv
    · exact h.above v hv b hb
    · exact (hG.lowerBound_le h b hb).trans (hG.mem _ (hvs v hv)).2.ge
  · obtain ⟨h₀, hn⟩ := hr.count h₀
    rw [hr.versions, h.count h₀, hn]
    rfl

end PartitionInv

/-! ## Running over the key groups -/

/-- The collected events are all those left at the key. -/
theorem of_returns_collectSameKeyEvents {fuel : ℕ} {merged merged' : EventMergeIterator}
    {events : List CompactionEvent} (hs : merged.Sorted) (hfuel : merged.events.length ≤ fuel)
    (hkey : ∀ e ∈ merged.events, key ≤ e.key)
    (h : Returns (collectSameKeyEvents key fuel merged) (events, merged')) :
    merged.events.Perm (events ++ merged'.events) ∧ (∀ e ∈ events, e.key = key) ∧
      (∀ e ∈ merged'.events, key < e.key) ∧ merged'.Sorted ∧ (merged'.Clean → merged.Clean) := by
  induction fuel generalizing merged events with
  | zero =>
    cases returns_pure.1 h
    have : merged'.events = [] := length_eq_zero_iff.1 (Nat.le_zero.1 hfuel)
    simp [this, hs]
  | succ fuel ih =>
    rw [collectSameKeyEvents, returns_ite] at h
    rcases h with ⟨hpeek, h⟩ | ⟨hpeek, h⟩
    · obtain ⟨next, hnext, h⟩ := returns_bind h
      match next, hnext, h with
      | none, _, h => exact absurd h not_returns_fail
      | some (e, merged₁), hnext, h =>
        obtain ⟨_, -, h⟩ := returns_bind h
        obtain ⟨⟨events₁, merged₂⟩, hrest, h⟩ := returns_bind h
        cases returns_pure.1 h
        rw [peekEvent_of_returns_nextEvent hnext, Option.any_some,
          beq_iff_eq] at hpeek
        obtain ⟨hperm, -, hs₁⟩ := of_returns_nextEvent hs hnext
        have hlen : merged₁.events.length ≤ fuel := by
          have := hperm.length_eq
          rw [length_cons] at this
          omega
        obtain ⟨hperm', heq, hlt, hs', hclean⟩ := ih hs₁ hlen
          (fun e he => hkey e (hperm.mem_iff.2 (mem_cons_of_mem _ he))) hrest
        exact ⟨hperm.trans (hperm'.cons e), forall_mem_cons.2 ⟨hpeek, heq⟩, hlt, hs',
          fun hc => clean_of_returns_nextEvent hnext (hclean hc)⟩
    · cases returns_pure.1 h
      refine ⟨.refl _, by simp, fun e he => ?_, hs, id⟩
      cases hp : merged'.peekEvent with
      | none => simp [peekEvent_eq_none_iff.1 hp] at he
      | some e' =>
        obtain ⟨hmem, hmin⟩ := of_peekEvent hs hp
        refine (hkey e he).lt_of_ne fun heq => hpeek ?_
        simpa [hp] using le_antisymm ((hmin e he).trans heq.ge) (hkey e' hmem)

/-- What a step preserves over every key group holds after all the events, and
    none of the inputs has failed. -/
theorem of_returns_forKeyGroups {σ : Type}
    {step : σ → Key → List CompactionEvent → Bool → MidgeExec σ}
    {I : List CompactionEvent → σ → Prop}
    (hstep : ∀ P G key s last s', GroupAt E P G key →
      (last = true ↔ ∀ e ∈ E, e ∈ P ++ G) → I P s →
      Returns (step s key G last) s' → I (P ++ G) s')
    {fuel : ℕ} {merged : EventMergeIterator} {s s' : σ} (hI : I P s) (hs : merged.Sorted)
    (hfuel : merged.events.length ≤ fuel) (hperm : (P ++ merged.events).Perm E)
    (hlt : ∀ e ∈ P, ∀ e' ∈ merged.events, e.key < e'.key)
    (hr : Returns (forKeyGroups step fuel merged s) s') :
    (∃ P', P'.Perm E ∧ I P' s') ∧ merged.Clean := by
  induction fuel generalizing merged P s with
  | zero =>
    obtain rfl := returns_pure.1 hr
    have hnil : merged.events = [] := length_eq_zero_iff.1 (Nat.le_zero.1 hfuel)
    exact ⟨⟨P, by simpa [hnil] using hperm, hI⟩, clean_of_events_eq_nil hnil⟩
  | succ fuel ih =>
    obtain ⟨next, hnext, hr⟩ := returns_bind hr
    match next, hnext, hr with
    | none, hnext, hr =>
      obtain rfl := returns_pure.1 hr
      have hnil := of_returns_nextEvent_none hnext
      exact ⟨⟨P, by simpa [hnil] using hperm, hI⟩, clean_of_events_eq_nil hnil⟩
    | some (first, merged₁), hnext, hr =>
      obtain ⟨_, -, hr⟩ := returns_bind hr
      obtain ⟨⟨events, merged₂⟩, hcollect, hr⟩ := returns_bind hr
      obtain ⟨s₁, hgroup, hr⟩ := returns_bind hr
      obtain ⟨hfirst, hmin, hs₁⟩ := of_returns_nextEvent hs hnext
      obtain ⟨hrest, heq, hgt, hs₂, hclean⟩ := of_returns_collectSameKeyEvents hs₁ le_rfl
        (fun e he => hmin e (hfirst.mem_iff.2 (mem_cons_of_mem _ he))) hcollect
      have hsplit : merged.events.Perm ((first :: events) ++ merged₂.events) :=
        hfirst.trans (hrest.cons first)
      have hmem : ∀ e, e ∈ E ↔ e ∈ P ∨ e ∈ first :: events ∨ e ∈ merged₂.events := fun e => by
        rw [← hperm.mem_iff, mem_append, hsplit.mem_iff, mem_append]
      have hG : GroupAt E P (first :: events) first.key := by
        refine ⟨⟨first, mem_cons_self⟩, fun e he => ⟨?_, ?_⟩, fun e he => ⟨?_, ?_⟩,
          fun e he => ?_⟩
        · exact (hmem e).2 (.inr (.inl he))
        · rcases mem_cons.1 he with rfl | he
          exacts [rfl, heq e he]
        · exact (hmem e).2 (.inl he)
        · exact hlt e he first (hsplit.mem_iff.2 (mem_append_left _ mem_cons_self))
        · exact ((hmem e).1 he).imp_right (Or.imp_right (hgt e))
      have hlast : merged₂.peekEvent.isNone = true ↔ ∀ e ∈ E, e ∈ P ++ first :: events := by
        rw [Option.isNone_iff_eq_none, peekEvent_eq_none_iff,
          eq_nil_iff_forall_not_mem]
        refine ⟨fun h e he => mem_append.2 (((hmem e).1 he).imp_right fun h' =>
          h'.resolve_right (h e)), fun h e he => ?_⟩
        rcases mem_append.1 (h e ((hmem e).2 (.inr (.inr he)))) with hP | hg
        · exact (hG.before e hP).2.not_ge (hgt e he).le
        · exact (hgt e he).ne' (hG.mem e hg).2
      refine (ih (hstep _ _ _ _ _ _ hG hlast hI hgroup) hs₂ ?_ ?_ (fun e he e' he' => ?_)
        hr).imp_right fun hc => clean_of_returns_nextEvent hnext (hclean hc)
      · have hlen := hsplit.length_eq
        rw [length_append, length_cons] at hlen
        omega
      · rw [append_assoc]
        exact ((List.Perm.refl P).append hsplit.symm).trans hperm
      · rcases mem_append.1 he with hP | hg
        · exact hlt e hP e' (hsplit.mem_iff.2 (mem_append_right _ he'))
        · rw [(hG.mem e hg).2]
          exact hgt e' he'

/-- What the writer leaves behind, for the events `E`: the versions `W`, and
    for every key the sequences of the live ranges that cover it. The outputs
    follow one another in key order, each of them in key order itself. -/
structure PartitionOutputs (gc : TombstoneGcPolicy) (E : List CompactionEvent)
    (W : List CompactionVersion) (outputs : List FinishedPartition) : Prop where
  versions : (outputs.flatMap fun o => o.contents.versions) = W
  covers : ∀ k c, OutputCover outputs k c ↔ LiveCover gc E k c
  ordered : OutputsOrdered outputs
  sorted : ∀ o ∈ outputs, (o.contents.versions.map RawSstVersion.key).Pairwise (· ≤ ·)
  unique : ∀ u v, version u ∈ E → version v ∈ E → u.key = v.key → u.seq = v.seq → u = v

/-- Closing the last partition. -/
theorem PartitionInv.finished_last (h : PartitionInv gc E P Q W w)
    (hr : Returns (finishPartitionedOutputs w) outputs) :
    ∃ finished, Finished w none finished ∧ outputs = w.outputs ++ finished.toList := by
  obtain ⟨_, -, hr⟩ := returns_bind hr
  obtain ⟨finished, hf, hr⟩ := returns_bind hr
  obtain ⟨outputs', houtputs, hr⟩ := returns_bind hr
  obtain ⟨_, -, hr⟩ := returns_bind hr
  cases returns_pure.1 hr
  exact ⟨finished, h.finished_of_returns hf, of_returns_recordFinishedPartition houtputs⟩

/-- The outputs once the last partition is closed. -/
theorem PartitionInv.of_returns_finishPartitionedOutputs (h : PartitionInv gc E P Q W w)
    (hP : P.Perm E) (hr : Returns (finishPartitionedOutputs w) outputs) :
    PartitionOutputs gc E W outputs := by
  obtain ⟨finished, hf, rfl⟩ := h.finished_last hr
  have hversions : ((w.outputs ++ finished.toList).flatMap fun o => o.contents.versions) = W := by
    rw [flatMap_append, hf.versions, h.versions]
  refine ⟨hversions, fun k c => ?_, h.ordered_of_finish (by simp) hf, fun o ho => ?_,
    fun u v hu hv => ?_⟩
  · rw [h.covers_of_finish (by simp) hf]
    simp [LiveCover, hP.mem_iff]
  · have hsub : o.contents.versions.Sublist W := by
      rw [← hversions, flatMap_def]
      exact sublist_flatten_of_mem (mem_map_of_mem ho)
    exact h.writtenSorted.sublist (hsub.map _)
  · exact h.unique u v (hP.mem_iff.2 hu) (hP.mem_iff.2 hv)

end Midge
