import Midge.Wal.Link

/-!
# The catalog of published WAL segments

In cloud mode the segments that may be recovered from remote storage are those that
the catalog lists. The catalog is a chain, as the ledger is: the first entry names the
anchor, the link of the last retired segment, and every other one names the link of
the entry before it. A catalog is validated when it is read (`validate`).
-/

namespace Midge

/-- One published segment. -/
structure CatalogEntry where
  /-- The epoch of the writer that wrote the segment. -/
  epoch : ℕ
  /-- The link of the segment before it. -/
  prev : ChainLink
  facts : SealedFacts
  /-- The size of the object that holds the segment. -/
  sizeBytes : ℕ
  /-- The checksum of that object. -/
  crc32c : ℕ
  deriving DecidableEq, Repr

/-- The name of the file of a segment. -/
def segmentFileName (id : SegmentId) : String := padded id ++ ".wal"

/-- The key of the object of a segment that a writer has published. -/
def segmentObjectKey (id : SegmentId) (writerEpoch : ℕ) : String :=
  s!"wal/epochs/{padded writerEpoch}/{segmentFileName id}"

namespace CatalogEntry

variable (entry : CatalogEntry)

def id : SegmentId := entry.facts.link.id

/-- The last sequence that the segment holds. -/
def maxSequence : ℕ := entry.facts.link.lastSeq

/-- The link that the footer of the segment seals. -/
def link : ChainLink := entry.facts.link

/-- The object that holds the segment. -/
def objectKey : String := segmentObjectKey entry.id entry.epoch

/-- The facts of a published segment: it has records, and their greatest sequences per
    family are below the last sequence and reach it. -/
def factsValid : Bool :=
  let facts := entry.facts
  decide (facts.recordCount ≠ 0) && !facts.maxSeqPerCf.isEmpty &&
    decide (segmentHeaderLen ≤ facts.dataLen) && decide (facts.dataLen < entry.sizeBytes) &&
    decide ((facts.maxSeqPerCf.map (·.1)).IsChain (· < ·)) &&
    facts.maxSeqPerCf.all (fun family => decide (family.2 ≠ 0 ∧ family.2 ≤ facts.link.lastSeq)) &&
    decide ((facts.maxSeqPerCf.map (·.2)).max? = some facts.link.lastSeq) &&
    decide (facts.maxSeqPerCf.length ≤ facts.recordCount)

end CatalogEntry

/-- The catalog format that this build reads and writes. -/
def catalogFormatVersion : ℕ := 3

/-- The catalog. -/
structure WalPublicationCatalog where
  formatVersion : ℕ
  fencingEpoch : ℕ
  /-- The link that the first entry names. -/
  anchor : ChainLink
  /-- Past every id that any writer has published. -/
  nextSegmentId : SegmentId
  /-- Every sequence up to it may belong to WAL that has been set aside. -/
  seqFloor : ℕ
  /-- The metadata generation that has authorized the retired prefix; 0 is none. -/
  retiredBy : ℕ
  /-- The oldest first. -/
  segments : List CatalogEntry
  deriving DecidableEq

namespace WalPublicationCatalog

/-- The link of the newest entry, or the anchor. -/
def head (catalog : WalPublicationCatalog) : ChainLink :=
  (catalog.segments.getLast?).elim catalog.anchor (·.link)

/-- Whether the entries chain from `prev`, with the epochs from `epoch` on. -/
def checkEntries (fencingEpoch : ℕ) : ChainLink → ℕ → List CatalogEntry → Except String Unit
  | _, _, [] => .ok ()
  | prev, epoch, entry :: entries => do
    ensure (entry.prev = prev)
      (s!"cloud WAL catalog segment {entry.id} links segment {entry.prev.id} (last sequence " ++
        s!"{entry.prev.lastSeq}), not segment {prev.id} (last sequence {prev.lastSeq}) before it")
    ensure (prev.id < entry.id ∧ prev.lastSeq < entry.maxSequence)
      s!"cloud WAL catalog segment {entry.id} does not follow segment {prev.id}"
    ensure (epoch ≤ entry.epoch)
      (s!"cloud WAL catalog segment {entry.id} lowers the writer epoch from {epoch} to " ++
        s!"{entry.epoch}")
    ensure (entry.epoch ≤ fencingEpoch)
      (s!"cloud WAL catalog segment {entry.id} writer epoch {entry.epoch} exceeds fencing epoch " ++
        s!"{fencingEpoch}")
    ensure entry.factsValid s!"cloud WAL catalog segment {entry.id} has invalid sealing facts"
    ensure (entry.sizeBytes ≠ 0) s!"cloud WAL catalog segment {entry.id} has invalid size"
    checkEntries fencingEpoch entry.link entry.epoch entries

/-- Whether the catalog is one that its mutators can reach. -/
def validate (catalog : WalPublicationCatalog) : Except String Unit := do
  ensure (catalog.formatVersion = catalogFormatVersion)
    (s!"unsupported cloud WAL publication catalog format version {catalog.formatVersion}; " ++
      s!"expected {catalogFormatVersion}")
  ensure (catalog.fencingEpoch ≠ 0) "cloud WAL catalog fencing epoch must be non-zero"
  ensure (catalog.anchor = .genesis ↔ catalog.retiredBy = 0)
    "cloud WAL catalog retired anchor and shared generation disagree"
  checkEntries catalog.fencingEpoch catalog.anchor 0 catalog.segments
  ensure (catalog.head.id < catalog.nextSegmentId)
    (s!"cloud WAL catalog next segment id {catalog.nextSegmentId} does not pass its head, " ++
      s!"segment {catalog.head.id}")

/-- The entries go up from a link, in id and in sequence. -/
theorem of_checkEntries {fencingEpoch epoch : ℕ} {prev : ChainLink} {entries : List CatalogEntry}
    (h : checkEntries fencingEpoch prev epoch entries = .ok ()) :
    (entries.map (·.link)).Pairwise (fun a b => a.id < b.id ∧ a.lastSeq < b.lastSeq) ∧
      ∀ entry ∈ entries, prev.id < entry.id ∧ prev.lastSeq < entry.maxSequence := by
  induction entries generalizing prev epoch with
  | nil => exact ⟨.nil, by simp⟩
  | cons entry entries ih =>
    simp only [checkEntries, except_bind_eq_ok, ensure_eq_ok] at h
    obtain ⟨_, -, _, hfollows, _, -, _, -, _, -, _, -, hrest⟩ := h
    obtain ⟨hpairwise, hafter⟩ := ih hrest
    refine ⟨List.pairwise_cons.2 ⟨?_, hpairwise⟩, fun e he => ?_⟩
    · rintro link hlink
      obtain ⟨e, he, rfl⟩ := List.mem_map.1 hlink
      exact hafter e he
    · rcases List.mem_cons.1 he with rfl | he
      · exact hfollows
      · exact ⟨hfollows.1.trans (hafter e he).1, hfollows.2.trans (hafter e he).2⟩

variable {catalog : WalPublicationCatalog}

theorem of_validate (h : catalog.validate = .ok ()) :
    (catalog.segments.map (·.link)).Pairwise (fun a b => a.id < b.id ∧ a.lastSeq < b.lastSeq) ∧
      (∀ entry ∈ catalog.segments, catalog.anchor.id < entry.id ∧
        catalog.anchor.lastSeq < entry.maxSequence) ∧ catalog.head.id < catalog.nextSegmentId := by
  simp only [validate, except_bind_eq_ok, ensure_eq_ok] at h
  obtain ⟨_, -, _, -, _, -, _, hentries, hnext⟩ := h
  obtain ⟨hpairwise, hafter⟩ := of_checkEntries hentries
  exact ⟨hpairwise, hafter, hnext⟩

/-- No entry is past the head. -/
theorem le_head (h : catalog.validate = .ok ()) {entry : CatalogEntry}
    (hentry : entry ∈ catalog.segments) :
    entry.id ≤ catalog.head.id ∧ entry.maxSequence ≤ catalog.head.lastSeq := by
  obtain ⟨hpairwise, -, -⟩ := of_validate h
  obtain ⟨init, last, hsegments⟩ :=
    (List.eq_nil_or_concat catalog.segments).resolve_left (List.ne_nil_of_mem hentry)
  rw [List.concat_eq_append] at hsegments
  have hhead : catalog.head = last.link := by simp [head, hsegments]
  rw [hsegments, List.map_append, List.pairwise_append] at hpairwise
  rw [hhead]
  rcases List.mem_append.1 (hsegments ▸ hentry) with hinit | hlast
  · have := hpairwise.2.2 entry.link (List.mem_map_of_mem hinit) last.link (by simp)
    exact ⟨this.1.le, this.2.le⟩
  · rw [List.mem_singleton.1 hlast]
    exact ⟨le_rfl, le_rfl⟩

end WalPublicationCatalog

end Midge
