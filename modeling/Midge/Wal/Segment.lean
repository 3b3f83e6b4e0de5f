import Midge.Wal.Catalog

/-!
# What a sealed segment says of itself

A segment is a header, record frames, and a footer frame that seals it. Its writer, and
every scan of its bytes, count the records in a `SegmentTail`; the footer has to be the
one that the counts give. Only a sealed segment with a record is published, under the
entry that describes it (`CatalogEntry.describing`).
-/

namespace Midge

open List

/-- The records that a segment holds so far. -/
structure SegmentTail where
  recordCount : ℕ
  firstSeq : Option ℕ
  lastSeq : Option ℕ
  /-- The highest sequence per family, by family. -/
  maxSeqPerCf : List (ℕ × ℕ)
  deriving DecidableEq, Repr

/-- Raise the highest sequence of a family. -/
def noteFamily (cf seq : ℕ) : List (ℕ × ℕ) → List (ℕ × ℕ)
  | [] => [(cf, seq)]
  | family :: families =>
    if cf < family.1 then (cf, seq) :: family :: families
    else if cf = family.1 then (cf, max family.2 seq) :: families
    else family :: noteFamily cf seq families

namespace SegmentTail

def empty : SegmentTail := ⟨0, none, none, []⟩

/-- Whether a record may come next: the sequences of a segment strictly increase from
    the first one of its header. -/
def admitRecord (tail : SegmentTail) (header : SegmentHeader) (seq : ℕ) : Except String Unit := do
  ensure (header.firstSeq ≤ seq)
    (s!"conflicting or repeated WAL sequence {seq}: segment {header.id} starts at " ++
      s!"{header.firstSeq}")
  ensure (∀ last ∈ tail.lastSeq, last < seq)
    s!"conflicting or repeated WAL sequence {seq} after {tail.lastSeq.getD 0}"

/-- Count a record. -/
def count (tail : SegmentTail) (seq cf : ℕ) : SegmentTail where
  recordCount := satAdd tail.recordCount 1
  firstSeq := some (tail.firstSeq.getD seq)
  lastSeq := some (tail.lastSeq.elim seq (max · seq))
  maxSeqPerCf := noteFamily cf seq tail.maxSeqPerCf

/-- Admit and count the records, each with its sequence and its family. -/
def observe (header : SegmentHeader) : SegmentTail → List (ℕ × ℕ) → Except String SegmentTail
  | tail, [] => .ok tail
  | tail, record :: records => do
    tail.admitRecord header record.1
    observe header (tail.count record.1 record.2) records

/-- The facts of the footer that seals the segment: one without a record has the last
    sequence of the segment before it. -/
def sealing (header : SegmentHeader) (tail : SegmentTail) (dataLen : ℕ) (digest : Digest128) :
    SealedFacts where
  link := ⟨header.id, tail.lastSeq.getD header.prev.lastSeq, digest⟩
  recordCount := tail.recordCount
  dataLen := dataLen
  maxSeqPerCf := tail.maxSeqPerCf

end SegmentTail

/-- A sealed segment: what its header and its frames hold, and the object of its bytes. -/
structure SegmentObject where
  header : SegmentHeader
  /-- The sequence and the family of each record. -/
  records : List (ℕ × ℕ)
  /-- The bytes before the footer, and their digest. -/
  dataLen : ℕ
  digest : Digest128
  /-- All the bytes, and their checksum. -/
  sizeBytes : ℕ
  crc32c : ℕ

/-- The verified header and footer of a sealed segment with a record. -/
structure SegmentValidation where
  writerEpoch : ℕ
  prev : ChainLink
  facts : SealedFacts

/-- Verify a sealed segment. -/
def SegmentObject.validate (object : SegmentObject) (key : String) :
    Except String SegmentValidation := do
  let tail ← (SegmentTail.empty.observe object.header object.records).mapError
    fun error => s!"cloud WAL segment '{key}': {error}"
  ensure (tail.recordCount ≠ 0) s!"cloud WAL segment '{key}' contains no records"
  return ⟨object.header.epoch, object.header.prev,
    tail.sealing object.header object.dataLen object.digest⟩

/-- The entry of a verified segment. -/
def CatalogEntry.describing (validation : SegmentValidation) (object : SegmentObject) :
    CatalogEntry :=
  ⟨validation.writerEpoch, validation.prev, validation.facts, object.sizeBytes, object.crc32c⟩

/-- The segment is one that a writer has sealed: its ledger has opened it, after the
    segment before and with an id that another one may follow, and its bytes are a
    header, a frame for each record, and a footer. -/
structure SegmentObject.Written (object : SegmentObject) : Prop where
  past : object.header.prev.lastSeq < object.header.firstSeq
  id_lt : object.header.id < usizeMax
  framed : segmentHeaderLen + object.records.length ≤ object.dataLen
  footer : object.dataLen < object.sizeBytes
  size_le : object.sizeBytes ≤ usizeMax

/-- The entry is that of a verified upload. -/
def CatalogEntry.Uploaded (entry : CatalogEntry) : Prop :=
  ∃ object : SegmentObject, object.Written ∧ ∃ key validation,
    object.validate key = .ok validation ∧ entry = .describing validation object

/-! ## The facts of a verified upload -/

section NoteFamily

variable {cf seq : ℕ} {families : List (ℕ × ℕ)}

theorem mem_noteFamily {family : ℕ × ℕ} (h : family ∈ noteFamily cf seq families) :
    family ∈ families ∨ family.1 = cf ∧
      (family.2 = seq ∨ ∃ old, (cf, old) ∈ families ∧ family.2 = max old seq) := by
  induction families with
  | nil =>
    cases mem_singleton.1 h
    exact .inr ⟨rfl, .inl rfl⟩
  | cons head families ih =>
    rw [noteFamily] at h
    split_ifs at h with hlt heq
    · rcases mem_cons.1 h with rfl | h
      exacts [.inr ⟨rfl, .inl rfl⟩, .inl h]
    · rcases mem_cons.1 h with rfl | h
      · refine .inr ⟨rfl, .inr ⟨head.2, ?_, rfl⟩⟩
        rw [heq]
        exact .head _
      · exact .inl (.tail _ h)
    · rcases mem_cons.1 h with rfl | h
      · exact .inl (.head _)
      · rcases ih h with h | ⟨hcf, h | ⟨old, hold, h⟩⟩
        exacts [.inl (.tail _ h), .inr ⟨hcf, .inl h⟩, .inr ⟨hcf, .inr ⟨old, .tail _ hold, h⟩⟩]

/-- The family has been raised to the sequence at least. -/
theorem exists_noteFamily : ∃ family ∈ noteFamily cf seq families, seq ≤ family.2 := by
  induction families with
  | nil => exact ⟨_, .head _, le_rfl⟩
  | cons head families ih =>
    rw [noteFamily]
    split_ifs with hlt heq
    · exact ⟨_, .head _, le_rfl⟩
    · exact ⟨_, .head _, le_max_right _ _⟩
    · obtain ⟨family, hfamily, hle⟩ := ih
      exact ⟨family, .tail _ hfamily, hle⟩

theorem length_noteFamily : (noteFamily cf seq families).length ≤ families.length + 1 := by
  induction families with
  | nil => exact le_rfl
  | cons head families ih =>
    rw [noteFamily]
    split_ifs
    · exact le_rfl
    · exact Nat.le_succ _
    · exact Nat.succ_le_succ ih

theorem pairwise_noteFamily (h : (families.map (·.1)).Pairwise (· < ·)) :
    ((noteFamily cf seq families).map (·.1)).Pairwise (· < ·) := by
  induction families with
  | nil => exact pairwise_singleton _ _
  | cons head families ih =>
    rw [map_cons, pairwise_cons] at h
    rw [noteFamily]
    split_ifs with hlt heq
    · refine pairwise_cons.2 ⟨fun c hc => ?_, pairwise_cons.2 h⟩
      rcases mem_cons.1 hc with rfl | hc
      exacts [hlt, hlt.trans (h.1 c hc)]
    · exact pairwise_cons.2 ⟨fun c hc => heq ▸ h.1 c hc, h.2⟩
    · refine pairwise_cons.2 ⟨fun c hc => ?_, ih h.2⟩
      obtain ⟨family, hfamily, rfl⟩ := mem_map.1 hc
      rcases mem_noteFamily hfamily with hfamily | ⟨hcf, -⟩
      · exact h.1 _ (mem_map_of_mem hfamily)
      · rw [hcf]
        exact lt_of_le_of_ne (not_lt.1 hlt) (Ne.symm heq)

end NoteFamily

/-- What the counts of `n` records say, when the sequences are from `first` on. -/
structure SegmentTail.Counts (tail : SegmentTail) (first n : ℕ) : Prop where
  count : tail.recordCount = n
  families : (tail.maxSeqPerCf.map (·.1)).Pairwise (· < ·)
  length_le : tail.maxSeqPerCf.length ≤ n
  /-- No family is past the last sequence, and one reaches it. -/
  bounds : ∀ family ∈ tail.maxSeqPerCf, first ≤ family.2 ∧ ∃ last ∈ tail.lastSeq, family.2 ≤ last
  reached : ∀ last ∈ tail.lastSeq, ∃ family ∈ tail.maxSeqPerCf, family.2 = last
  last_isSome : tail.lastSeq.isSome ↔ n ≠ 0

namespace SegmentTail

variable {header : SegmentHeader} {tail tail' : SegmentTail} {n : ℕ}

theorem counts_empty {first : ℕ} : empty.Counts first 0 :=
  ⟨rfl, .nil, le_rfl, by simp [empty], by simp [empty], by simp [empty]⟩

theorem Counts.count_record (h : tail.Counts header.firstSeq n) {record : ℕ × ℕ}
    (hn : n < usizeMax) (hfirst : header.firstSeq ≤ record.1)
    (hlast : ∀ last ∈ tail.lastSeq, last < record.1) :
    (tail.count record.1 record.2).Counts header.firstSeq (n + 1) := by
  have hlastSeq : (tail.count record.1 record.2).lastSeq = some record.1 := by
    cases hseq : tail.lastSeq with
    | none => simp [SegmentTail.count, hseq]
    | some last =>
      simp only [SegmentTail.count, hseq, Option.elim_some]
      rw [max_eq_right (hlast last hseq).le]
  have hbounds : ∀ family ∈ noteFamily record.2 record.1 tail.maxSeqPerCf,
      header.firstSeq ≤ family.2 ∧ family.2 ≤ record.1 := by
    have hold : ∀ family ∈ tail.maxSeqPerCf, header.firstSeq ≤ family.2 ∧ family.2 ≤ record.1 := by
      intro family hfamily
      obtain ⟨hle, last, hmem, hlast'⟩ := h.bounds family hfamily
      exact ⟨hle, hlast'.trans (hlast last hmem).le⟩
    intro family hfamily
    rcases mem_noteFamily hfamily with hfamily | ⟨-, heq | ⟨old, hmem, heq⟩⟩
    · exact hold family hfamily
    · exact ⟨heq ▸ hfirst, heq.le⟩
    · rw [heq, max_eq_right (hold _ hmem).2]
      exact ⟨hfirst, le_rfl⟩
  refine ⟨?_, pairwise_noteFamily h.families, length_noteFamily.trans (Nat.succ_le_succ h.length_le),
    fun family hfamily => ⟨(hbounds family hfamily).1, record.1, hlastSeq, (hbounds family hfamily).2⟩,
    fun last hmem => ?_, ?_⟩
  · simp only [SegmentTail.count, satAdd, h.count]
    exact min_eq_left hn
  · cases hlastSeq.symm.trans hmem
    obtain ⟨family, hfamily, hle⟩ := @exists_noteFamily record.2 record.1 tail.maxSeqPerCf
    exact ⟨family, hfamily, le_antisymm (hbounds family hfamily).2 hle⟩
  · rw [hlastSeq]
    simp

theorem Counts.observe (h : tail.Counts header.firstSeq n) {records : List (ℕ × ℕ)}
    (hn : n + records.length ≤ usizeMax) (htail : tail.observe header records = .ok tail') :
    tail'.Counts header.firstSeq (n + records.length) := by
  induction records generalizing tail n with
  | nil =>
    cases htail
    exact h
  | cons record records ih =>
    rw [length_cons] at hn
    simp only [SegmentTail.observe, admitRecord, except_bind_eq_ok, ensure_eq_ok] at htail
    obtain ⟨_, ⟨_, hfirst, hlast⟩, htail⟩ := htail
    have := ih (h.count_record (by omega) hfirst hlast) (by omega) htail
    rw [length_cons, ← Nat.add_assoc, Nat.add_right_comm]
    exact this

end SegmentTail

/-- The entry of a verified upload is one that a catalog may have. -/
theorem CatalogEntry.Uploaded.valid {entry : CatalogEntry} (h : entry.Uploaded) :
    entry.factsValid ∧ entry.sizeBytes ≠ 0 ∧ entry.id < usizeMax := by
  obtain ⟨object, hwritten, key, validation, hvalidate, rfl⟩ := h
  simp only [SegmentObject.validate, except_bind_eq_ok, mapError_eq_ok, ensure_eq_ok] at hvalidate
  obtain ⟨tail, htail, _, hcount, hvalidate⟩ := hvalidate
  cases hvalidate
  have hfits : object.records.length ≤ usizeMax := by
    have := hwritten.framed
    have := hwritten.footer
    have := hwritten.size_le
    omega
  obtain ⟨hcounted, hfamilies, hlength, hbounds, hreached, hsome⟩ :=
    SegmentTail.counts_empty.observe (by omega) htail
  obtain ⟨last, hlast⟩ := Option.isSome_iff_exists.1 (hsome.2 (hcounted ▸ hcount))
  obtain ⟨family, hfamily, hfamilyLast⟩ := hreached last hlast
  have hle : ∀ family ∈ tail.maxSeqPerCf, family.2 ≤ last := by
    intro family hfamily
    obtain ⟨-, last', hlast', hle⟩ := hbounds family hfamily
    cases hlast.symm.trans hlast'
    exact hle
  have hmax : (tail.maxSeqPerCf.map (·.2)).max? = some last := by
    rw [max?_eq_some_iff]
    refine ⟨mem_map.2 ⟨family, hfamily, hfamilyLast⟩, fun seq hseq => ?_⟩
    obtain ⟨family, hfamily, rfl⟩ := mem_map.1 hseq
    exact hle family hfamily
  have hpositive : ∀ family ∈ tail.maxSeqPerCf, family.2 ≠ 0 := fun family hfamily =>
    (lt_of_lt_of_le (Nat.zero_lt_of_lt hwritten.past) (hbounds family hfamily).1).ne'
  have hnonempty : tail.maxSeqPerCf ≠ [] := ne_nil_of_mem hfamily
  refine ⟨?_, (Nat.zero_lt_of_lt hwritten.footer).ne', hwritten.id_lt⟩
  simp only [CatalogEntry.factsValid, CatalogEntry.describing, SegmentTail.sealing, hlast,
    Option.getD_some, hmax, Bool.and_eq_true, decide_eq_true_eq, all_eq_true,
    isChain_iff_pairwise, hfamilies]
  refine ⟨⟨⟨⟨⟨⟨⟨hcount, by simpa using hnonempty⟩, ?_⟩, hwritten.footer⟩, trivial⟩,
    fun family hfamily => ⟨hpositive family hfamily, hle family hfamily⟩⟩, trivial⟩,
    hcounted ▸ hlength⟩
  exact (Nat.le_add_right _ _).trans hwritten.framed

end Midge
