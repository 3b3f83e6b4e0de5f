import Midge.Types
import Midge.Lib.Update

/-!
# How WAL segments chain

The header of a segment names the link of the segment before it: its id, the last
sequence that it holds and the digest of its bytes. `follows` is the rule that a
segment and the one before it obey, and a `Chain` admits segments one after the other.
-/

namespace Midge

/-- A WAL segment id. -/
abbrev SegmentId := ℕ

/-- A digest of 16 bytes. -/
abbrev Digest128 := Vector Byte 16

/-- What a sealed segment contributes to the chain. -/
structure ChainLink where
  id : SegmentId
  lastSeq : ℕ
  digest : Digest128
  deriving DecidableEq, Repr

/-- The link before the first segment of a new history. -/
def ChainLink.genesis : ChainLink := ⟨0, 0, .replicate 16 (byte 0)⟩

/-- What the header of a segment fixes besides its holder. -/
structure OpenFacts where
  id : SegmentId
  /-- The writer epoch that created the segment. -/
  epoch : ℕ
  /-- Every record in the segment is at least this. -/
  firstSeq : ℕ
  /-- The link of the segment before it. -/
  prev : ChainLink
  deriving DecidableEq, Repr

/-- What sealing a segment fixes, as its footer records it. -/
structure SealedFacts where
  /-- The last sequence is that of the segment before when there is no record. -/
  link : ChainLink
  recordCount : ℕ
  /-- Bytes before the footer, header included. -/
  dataLen : ℕ
  /-- The highest sequence per column family. -/
  maxSeqPerCf : List (ℕ × ℕ)
  deriving DecidableEq, Repr

/-- The length of the header of a segment. -/
def segmentHeaderLen : ℕ := 128

/-- The chain rule: whether a segment may follow the one whose link is `prev`, after
    segments written by `minEpoch`. -/
def follows (prev : ChainLink) (minEpoch : Option ℕ) (facts : OpenFacts) : Except String Unit := do
  ensure (facts.prev = prev)
    (s!"segment {facts.id} links segment {facts.prev.id} (last sequence {facts.prev.lastSeq})" ++
      s!", not segment {prev.id} (last sequence {prev.lastSeq}) before it")
  ensure (prev.lastSeq < facts.firstSeq)
    s!"segment {facts.id} starts at sequence {facts.firstSeq}, not past {prev.lastSeq}"
  ensure (∀ epoch ∈ minEpoch, epoch ≤ facts.epoch)
    s!"segment {facts.id} has epoch {facts.epoch} below epoch {minEpoch.getD 0}"
  ensure (prev.id < facts.id) s!"segment {facts.id} does not follow segment {prev.id}"

/-- What the chain rule asks for. -/
structure ChainRule (prev : ChainLink) (minEpoch : Option ℕ) (facts : OpenFacts) : Prop where
  prev_eq : facts.prev = prev
  past : prev.lastSeq < facts.firstSeq
  epoch : ∀ epoch ∈ minEpoch, epoch ≤ facts.epoch
  id : prev.id < facts.id

theorem follows_eq_ok {prev : ChainLink} {minEpoch : Option ℕ} {facts : OpenFacts} {u : Unit} :
    follows prev minEpoch facts = .ok u ↔ ChainRule prev minEpoch facts := by
  simp only [follows, except_bind_eq_ok, ensure_eq_ok]
  constructor
  · rintro ⟨_, h₁, _, h₂, _, h₃, h₄⟩
    exact ⟨h₁, h₂, h₃, h₄⟩
  · rintro ⟨h₁, h₂, h₃, h₄⟩
    exact ⟨(), h₁, (), h₂, (), h₃, h₄⟩

/-- An older epoch asks for less. -/
theorem ChainRule.of_epoch {prev : ChainLink} {e : ℕ} {minEpoch : Option ℕ} {facts : OpenFacts}
    (h : ChainRule prev (some e) facts) (hle : ∀ epoch ∈ minEpoch, epoch ≤ e) :
    ChainRule prev minEpoch facts :=
  ⟨h.prev_eq, h.past, fun epoch hmem => (hle epoch hmem).trans (h.epoch e rfl), h.id⟩

/-! ## Chains -/

/-- The header at the start of a segment. -/
structure SegmentHeader where
  id : SegmentId
  epoch : ℕ
  holder : Vector Byte 16
  firstSeq : ℕ
  prev : ChainLink
  deriving DecidableEq, Repr

/-- The facts that the header fixes besides its holder. -/
def SegmentHeader.openFacts (header : SegmentHeader) : OpenFacts :=
  ⟨header.id, header.epoch, header.firstSeq, header.prev⟩

/-- Admits segments in replay order. -/
structure Chain where
  /-- The link that the next segment must name; `none` before the first segment when
      the anchor is unknown. -/
  expectedPrev : Option ChainLink
  /-- The newest epoch admitted so far. -/
  epoch : Option ℕ
  /-- Whether the last segment admitted is unsealed: nothing may follow it. -/
  isOpen : Bool
  deriving DecidableEq, Repr

namespace Chain

/-- A chain whose first segment must name the anchor. -/
def new (anchor : Option ChainLink) : Chain := ⟨anchor, none, false⟩

/-- Admit a segment, planned as segment `id`. -/
def admitSegment (chain : Chain) (header : SegmentHeader) (id : SegmentId) : MidgeResult Chain := do
  ensure (chain.isOpen = false)
    (.corruption s!"WAL segment {id} follows a segment that was never sealed")
  ensure (header.id = id)
    (.corruption s!"WAL segment {id} holds the header of segment {header.id}")
  (follows (chain.expectedPrev.getD header.prev) chain.epoch header.openFacts).mapError
    fun reason => .corruption s!"WAL {reason}"
  return { chain with epoch := some header.epoch, isOpen := true }

/-- The admitted segment is sealed, and the next one must name its link. -/
def sealWith (chain : Chain) (link : ChainLink) : Chain :=
  { chain with expectedPrev := some link, isOpen := false }

theorem admitSegment_eq_ok {chain chain' : Chain} {header : SegmentHeader} {id : SegmentId} :
    chain.admitSegment header id = .ok chain' ↔ chain.isOpen = false ∧ header.id = id ∧
      ChainRule (chain.expectedPrev.getD header.prev) chain.epoch header.openFacts ∧
      chain' = { chain with epoch := some header.epoch, isOpen := true } := by
  simp only [admitSegment, except_bind_eq_ok, ensure_eq_ok, mapError_eq_ok, follows_eq_ok]
  constructor
  · rintro ⟨_, hopen, _, hid, _, hrule, h⟩
    cases h
    exact ⟨hopen, hid, hrule, rfl⟩
  · rintro ⟨hopen, hid, hrule, rfl⟩
    exact ⟨(), hopen, (), hid, (), hrule, rfl⟩

end Chain

end Midge
