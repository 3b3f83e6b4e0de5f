import Midge.Resolve

/-!
# SSTs and their manifest entries

An SST is a file, as the manifest describes it, with its contents. When a file
is published its entry is summarized from the contents: the bounds of its keys,
range endpoints included, and of its sequences (`summarize`). An entry that is
right about its contents, with complete bounds, is `Bounded`.
-/

namespace Midge

open List

/-- An SST: its manifest entry and its contents. -/
structure Sst where
  file : FileMeta
  contents : SstContents
  deriving DecidableEq, Repr

/-! ## Summaries -/

/-- The bounds of an SST. -/
structure SstFileSummary where
  sizeBytes : ℕ
  smallestKey : Key
  largestKey : Key
  smallestSeq : ℕ
  largestSeq : ℕ
  earliestExpirationMillis : Option ℕ := none
  deriving DecidableEq, Repr

/-- What a summary takes in: a key, its sequence and its expiration. -/
structure SummaryEntry where
  key : Key
  seq : ℕ
  expiration : Option ℕ
  deriving DecidableEq, Repr

/-- The entries of an SST: both ends of its range tombstones, then its
    versions. -/
def SstContents.summaryEntries (d : SstContents) : List SummaryEntry :=
  (d.tombstones.flatMap fun t => [⟨t.start, t.seq, none⟩, ⟨t.stop, t.seq, none⟩]) ++
    d.versions.map fun v => ⟨v.key, v.seq, v.expiration⟩

/-- Take in an entry. -/
def observeEntry (size : ℕ) (summary : Option SstFileSummary) (e : SummaryEntry) :
    Option SstFileSummary :=
  let s := summary.getD ⟨size, e.key, e.key, e.seq, e.seq, none⟩
  some { s with
    smallestKey := min s.smallestKey e.key
    largestKey := max s.largestKey e.key
    smallestSeq := min s.smallestSeq e.seq
    largestSeq := max s.largestSeq e.seq
    earliestExpirationMillis := e.expiration.elim s.earliestExpirationMillis fun expiration =>
      some (s.earliestExpirationMillis.elim expiration (min · expiration)) }

/-- The summary of an SST, unless it is empty. -/
def summarize (size : ℕ) (d : SstContents) : Option SstFileSummary :=
  d.summaryEntries.foldl (observeEntry size) none

/-- The summary bounds the entry. -/
def SstFileSummary.Bounds (s : SstFileSummary) (e : SummaryEntry) : Prop :=
  s.smallestKey ≤ e.key ∧ e.key ≤ s.largestKey ∧ s.smallestSeq ≤ e.seq ∧ e.seq ≤ s.largestSeq

/-- A summary bounds every entry it has taken in. -/
theorem bounds_of_foldl {size : ℕ} {l seen : List SummaryEntry}
    {summary : Option SstFileSummary} {s : SstFileSummary}
    (hseen : ∀ s ∈ summary, ∀ e ∈ seen, s.Bounds e) (hnone : summary = none → seen = [])
    (h : l.foldl (observeEntry size) summary = some s) : ∀ e ∈ seen ++ l, s.Bounds e := by
  induction l generalizing summary seen with
  | nil =>
    rw [append_nil]
    exact hseen s h
  | cons a l ih =>
    rw [← singleton_append, ← append_assoc]
    refine ih ?_ (fun hn => by simp [observeEntry] at hn) h
    rintro _ ⟨⟩ e he
    rcases mem_append.1 he with he | he
    · cases summary with
      | none => simp [hnone rfl] at he
      | some s₀ =>
        obtain ⟨h₁, h₂, h₃, h₄⟩ := hseen s₀ rfl e he
        exact ⟨min_le_of_left_le h₁, le_max_of_le_left h₂, min_le_of_left_le h₃,
          le_max_of_le_left h₄⟩
    · rw [mem_singleton.1 he]
      exact ⟨min_le_right _ _, le_max_right _ _, min_le_right _ _, le_max_right _ _⟩

variable {d : SstContents}

theorem bounds_of_summarize {size : ℕ} {s : SstFileSummary} (h : summarize size d = some s) :
    ∀ e ∈ d.summaryEntries, s.Bounds e := by
  simpa using @bounds_of_foldl size _ [] none s (by simp) (fun _ => rfl) h

/-- The key bounds of a summary are keys that it has taken in. -/
theorem attained_of_foldl {size : ℕ} {l seen : List SummaryEntry}
    {summary : Option SstFileSummary} {s : SstFileSummary}
    (hseen : ∀ s ∈ summary, (∃ e ∈ seen, e.key = s.smallestKey) ∧ ∃ e ∈ seen, e.key = s.largestKey)
    (h : l.foldl (observeEntry size) summary = some s) :
    (∃ e ∈ seen ++ l, e.key = s.smallestKey) ∧ ∃ e ∈ seen ++ l, e.key = s.largestKey := by
  induction l generalizing summary seen with
  | nil =>
    rw [append_nil]
    exact hseen s h
  | cons a l ih =>
    rw [← singleton_append, ← append_assoc]
    refine ih ?_ h
    rintro _ ⟨⟩
    have hmem : a ∈ seen ++ [a] := by simp
    cases summary with
    | none => simp
    | some s₀ =>
      obtain ⟨⟨e, he, hmin⟩, e', he', hmax⟩ := hseen s₀ rfl
      constructor
      · rcases min_choice s₀.smallestKey a.key with hc | hc
        exacts [⟨e, mem_append_left _ he, hmin.trans hc.symm⟩, ⟨a, hmem, hc.symm⟩]
      · rcases max_choice s₀.largestKey a.key with hc | hc
        exacts [⟨e', mem_append_left _ he', hmax.trans hc.symm⟩, ⟨a, hmem, hc.symm⟩]

/-- The keys of the entries are the bounds of the contents. -/
theorem SstContents.mem_bounds_iff {k : Key} :
    k ∈ d.bounds ↔ ∃ e ∈ d.summaryEntries, e.key = k := by
  simp only [bounds, summaryEntries, mem_append, mem_map, mem_flatMap,
    mem_cons, not_mem_nil, or_false]
  constructor
  · rintro (⟨v, hv, rfl⟩ | ⟨t, ht, rfl | rfl⟩)
    · exact ⟨_, .inr ⟨v, hv, rfl⟩, rfl⟩
    · exact ⟨_, .inl ⟨t, ht, .inl rfl⟩, rfl⟩
    · exact ⟨_, .inl ⟨t, ht, .inr rfl⟩, rfl⟩
  · rintro ⟨_, ⟨t, ht, rfl | rfl⟩ | ⟨v, hv, rfl⟩, rfl⟩
    · exact .inr ⟨t, ht, .inl rfl⟩
    · exact .inr ⟨t, ht, .inr rfl⟩
    · exact .inl ⟨v, hv, rfl⟩

/-- The interval is the hull of the contents. -/
structure SstContents.Spans (d : SstContents) (i : Key × Key) : Prop where
  lower : i.1 ∈ d.bounds
  upper : i.2 ∈ d.bounds
  within : ∀ k ∈ d.bounds, i.1 ≤ k ∧ k ≤ i.2

/-- A summary gives the hull of its SST. -/
theorem spans_of_summarize {size : ℕ} {s : SstFileSummary} (h : summarize size d = some s) :
    d.Spans (s.smallestKey, s.largestKey) := by
  obtain ⟨hmin, hmax⟩ := @attained_of_foldl size d.summaryEntries [] none s (by simp) h
  refine ⟨SstContents.mem_bounds_iff.2 hmin, SstContents.mem_bounds_iff.2 hmax, fun k hk => ?_⟩
  obtain ⟨e, he, rfl⟩ := SstContents.mem_bounds_iff.1 hk
  obtain ⟨hl, hu, -⟩ := bounds_of_summarize h e he
  exact ⟨hl, hu⟩

/-! ## Entries that are right about their contents -/

/-- The entry has complete bounds and is right about the contents. -/
structure Bounded (file : FileMeta) (d : SstContents) : Prop where
  complete : file.keyBoundsComplete = true
  keys : ∃ lower upper, file.smallestKey = some lower ∧ file.largestKey = some upper ∧
    ∀ b ∈ d.bounds, lower ≤ b ∧ b ≤ upper
  smallestSeq : ∀ s ∈ file.smallestSeq, ∀ q ∈ d.sequences, s ≤ q
  largestSeq : ∀ s ∈ file.largestSeq, ∀ q ∈ d.sequences, q ≤ s

theorem SstContents.inHull_of_holds {k : Key} (h : d.Holds k) : d.InHull k := by
  rcases h with ⟨v, hv, rfl⟩ | ⟨t, ht, hk⟩
  exacts [inHull_key hv, inHull_covers ht hk]

theorem SstContents.seq_mem_of_hasSeqAt {k : Key} {c : ℕ} (h : d.HasSeqAt k c) :
    c ∈ d.sequences := by
  rcases h with ⟨v, hv, -, rfl⟩ | ⟨t, ht, -, rfl⟩
  exacts [seq_mem_of_version hv, seq_mem_of_tombstone ht]

/-- The keys that an SST holds lie within its bounds. -/
theorem Bounded.of_holds {file : FileMeta} (h : Bounded file d) {k : Key} (hk : d.Holds k) :
    ∃ lower upper, file.smallestKey = some lower ∧ file.largestKey = some upper ∧
      lower ≤ k ∧ k ≤ upper := by
  obtain ⟨lower, upper, hl, hu, hb⟩ := h.keys
  obtain ⟨a, ha, b, hb', hak, hkb⟩ := SstContents.inHull_of_holds hk
  exact ⟨lower, upper, hl, hu, (hb a ha).1.trans hak, hkb.trans (hb b hb').2⟩

/-- The manifest entry of a published file. -/
def publishedMeta (name : String) (level cfId : ℕ) (crc : ℕ) (s : SstFileSummary) : FileMeta where
  name := name
  level := level
  sizeBytes := s.sizeBytes
  contentCrc32c := some crc
  cfId := cfId
  smallestKey := some s.smallestKey
  largestKey := some s.largestKey
  smallestSeq := some s.smallestSeq
  largestSeq := some s.largestSeq
  keyBoundsComplete := true
  earliestExpirationMillis := s.earliestExpirationMillis

/-- A published entry is right about its contents. -/
theorem bounded_publishedMeta {name : String} {level cfId crc size : ℕ} {d : SstContents}
    {s : SstFileSummary} (h : summarize size d = some s) :
    Bounded (publishedMeta name level cfId crc s) d := by
  have hentries := bounds_of_summarize h
  have hversion : ∀ v ∈ d.versions, s.Bounds ⟨v.key, v.seq, v.expiration⟩ := fun v hv =>
    hentries _ (mem_append_right _ (mem_map_of_mem hv))
  have hrange : ∀ t ∈ d.tombstones, s.Bounds ⟨t.start, t.seq, none⟩ ∧ s.Bounds ⟨t.stop, t.seq, none⟩ :=
    fun t ht => ⟨hentries _ (mem_append_left _ (mem_flatMap.2 ⟨t, ht, by simp⟩)),
      hentries _ (mem_append_left _ (mem_flatMap.2 ⟨t, ht, by simp⟩))⟩
  have hseq : ∀ q ∈ d.sequences, s.smallestSeq ≤ q ∧ q ≤ s.largestSeq := by
    intro q hq
    rcases mem_append.1 hq with hq | hq
    · obtain ⟨v, hv, rfl⟩ := mem_map.1 hq
      exact (hversion v hv).2.2
    · obtain ⟨t, ht, rfl⟩ := mem_map.1 hq
      exact (hrange t ht).1.2.2
  refine ⟨rfl, ⟨_, _, rfl, rfl, fun b hb => ?_⟩, ?_, ?_⟩
  · rcases mem_append.1 hb with hb | hb
    · obtain ⟨v, hv, rfl⟩ := mem_map.1 hb
      exact ⟨(hversion v hv).1, (hversion v hv).2.1⟩
    · obtain ⟨t, ht, hb⟩ := mem_flatMap.1 hb
      have := hrange t ht
      rcases mem_cons.1 hb with rfl | hb
      · exact ⟨this.1.1, this.1.2.1⟩
      · rw [mem_singleton.1 hb]
        exact ⟨this.2.1, this.2.2.1⟩
  · rintro _ ⟨⟩ q hq
    exact (hseq q hq).1
  · rintro _ ⟨⟩ q hq
    exact (hseq q hq).2

end Midge
