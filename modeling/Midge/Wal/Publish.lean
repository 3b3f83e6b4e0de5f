import Midge.Lib.Keyed
import Midge.Wal.Segment

/-!
# Publishing segments

A writer seals segments in order, and uploads them in any order. The catalog may only
list a contiguous piece of what has been sealed, so a verified upload is only recorded
(`AckSet`), and one publication adds the longest run of the owed segments that have all
been acknowledged (`uploadedRun`), past the head of the catalog (`additions`).

The catalog object is read and written by whoever holds the lease, or has held it. Its
mutators check all they require, the epoch of the writer above all, and then change the
catalog in place (`CatalogOp.apply`).
-/

namespace Midge

open WalPublicationCatalog

/-- Why a publication cannot go ahead. -/
inductive Refusal
  | unordered (previous next : SegmentId)
  | sequenceMismatch (segmentId : SegmentId) (sealed uploaded : ℕ)
  | conflict (segmentId : SegmentId)
  | behindHead (segmentId head : SegmentId)
  | unchained (segmentId : SegmentId) (head : ChainLink)
  | epochMismatch (catalog writer : ℕ)
  deriving DecidableEq, Repr

/-- Check that the ids strictly ascend, after `previous`. -/
def ascending : Option SegmentId → List SegmentId → Except Refusal Unit
  | _, [] => .ok ()
  | previous, next :: ids => do
    ensure (∀ id ∈ previous, id < next) (.unordered (previous.getD 0) next)
    ascending (some next) ids

/-! ## Acknowledged segments -/

/-- What the writer knows that the cloud holds of a segment. -/
inductive Ack
  /-- A verified upload that the catalog does not list yet. -/
  | uploaded (entry : CatalogEntry)
  | published (entry : CatalogEntry)
  deriving DecidableEq, Repr

def Ack.maxSequence : Ack → ℕ
  | .uploaded entry | .published entry => entry.maxSequence

/-- The acknowledged segments of a writer. -/
structure AckSet where
  acks : AList fun _ : SegmentId => Ack

/-- A sealed segment that its writer has not seen published. -/
structure OwedSegment where
  segmentId : SegmentId
  maxSequence : ℕ
  deriving DecidableEq, Repr

namespace AckSet

variable (acks : AckSet)

def maxSequence (segmentId : SegmentId) : Option ℕ :=
  (acks.acks.lookup segmentId).map Ack.maxSequence

/-- Acknowledge a verified upload; a published segment stays published. -/
def recordUpload (entry : CatalogEntry) : AckSet :=
  match acks.acks.lookup entry.id with
  | some (.published _) => acks
  | _ => ⟨acks.acks.insert entry.id (.uploaded entry)⟩

/-- The upload of a segment, if it waits to be published. -/
def upload (segmentId : SegmentId) : Option CatalogEntry :=
  match acks.acks.lookup segmentId with
  | some (.uploaded entry) => some entry
  | _ => none

/-- What publishing a run adds: its verified uploads, the oldest first. -/
def unpublished (run : List OwedSegment) : List CatalogEntry :=
  run.filterMap fun segment => acks.upload segment.segmentId

/-- The owed segments up to the first that is not acknowledged. -/
def takeAcknowledged : List OwedSegment → Except Refusal (List OwedSegment)
  | [] => .ok []
  | segment :: owed =>
    match acks.maxSequence segment.segmentId with
    | none => .ok []
    | some uploaded => do
      ensure (uploaded = segment.maxSequence)
        (.sequenceMismatch segment.segmentId segment.maxSequence uploaded)
      let run ← takeAcknowledged owed
      return segment :: run

end AckSet

/-- The longest run of the owed segments whose every segment is acknowledged. -/
def uploadedRun (owed : List OwedSegment) (acks : AckSet) : Except Refusal (List OwedSegment) := do
  ascending none (owed.map (·.segmentId))
  acks.takeAcknowledged owed

/-! ## Additions -/

/-- What the segments of a run add past the head; `added` tells whether one before has
    been added. -/
def addFrom (published : List CatalogEntry) :
    ChainLink → Option ℕ → Bool → List CatalogEntry → Except Refusal (List CatalogEntry)
  | _, _, _, [] => .ok []
  | head, epoch, added, entry :: run =>
    match lookupBy CatalogEntry.id entry.id published with
    | some listed =>
      -- Only a leading piece can be there already.
      if listed = entry ∧ added = false then addFrom published head epoch added run
      else .error (.conflict entry.id)
    | none => do
      ensure (head.id < entry.id) (.behindHead entry.id head.id)
      ensure (entry.prev = head ∧ head.lastSeq < entry.maxSequence ∧
        ∀ least ∈ epoch, least ≤ entry.epoch) (.unchained entry.id head)
      let rest ← addFrom published entry.link (some entry.epoch) true run
      return entry :: rest

/-- What publishing a run adds to a catalog. -/
def additions (head : ChainLink) (published run : List CatalogEntry) :
    Except Refusal (List CatalogEntry) := do
  ascending none (run.map (·.id))
  addFrom published head (published.getLast?.map (·.epoch)) false run

/-! ## The mutators of the catalog -/

/-- Why a change of the catalog is refused. -/
inductive CatalogRefusal
  | epochMismatch (catalog writer : ℕ)
  | notOldestPrefix (segmentId : SegmentId) (oldest : Option SegmentId)
  | changed (segmentId : SegmentId)
  | generationRegression (retiredBy proposed : ℕ)
  | notSuffix (start : SegmentId)
  /-- A publication is refused. -/
  | publication (refusal : Refusal)
  deriving DecidableEq, Repr

namespace WalPublicationCatalog

/-- Hand the catalog to a writer. Returns whether it has changed. -/
def fenceTo (writerEpoch : ℕ) : Update CatalogRefusal WalPublicationCatalog Bool := do
  let catalog ← get
  Update.check <| ensure (catalog.fencingEpoch ≤ writerEpoch) <|
    .epochMismatch catalog.fencingEpoch writerEpoch
  modify fun catalog => { catalog with fencingEpoch := writerEpoch }
  return decide (writerEpoch ≠ catalog.fencingEpoch)

/-- What appending a run adds. -/
def appendAdditions (catalog : WalPublicationCatalog) (fencingEpoch : ℕ)
    (run : List CatalogEntry) : Except Refusal (List CatalogEntry) := do
  ensure (fencingEpoch = catalog.fencingEpoch) (.epochMismatch catalog.fencingEpoch fencingEpoch)
  let added ← additions catalog.head catalog.segments run
  added.forM fun entry => ensure (entry.epoch ≤ catalog.fencingEpoch)
    (.epochMismatch catalog.fencingEpoch entry.epoch)
  return added

/-- Append what has been accepted. -/
def extendValidated (catalog : WalPublicationCatalog) (added : List CatalogEntry) :
    WalPublicationCatalog :=
  match added.getLast? with
  | none => catalog
  | some last => { catalog with
      nextSegmentId := max catalog.nextSegmentId (satAdd last.id 1)
      segments := catalog.segments ++ added }

/-- Append a run. Returns whether the catalog has changed. -/
def appendRun (fencingEpoch : ℕ) (run : List CatalogEntry) :
    Update CatalogRefusal WalPublicationCatalog Bool := do
  let catalog ← get
  let added ← Update.check ((catalog.appendAdditions fencingEpoch run).mapError .publication)
  modify fun catalog => catalog.extendValidated added
  return !added.isEmpty

/-- Another writer owns the catalog. -/
def requireEpoch (catalog : WalPublicationCatalog) (writerEpoch : ℕ) :
    Except CatalogRefusal Unit :=
  ensure (writerEpoch = catalog.fencingEpoch) (.epochMismatch catalog.fencingEpoch writerEpoch)

/-- Check that the ids are those of the segments, in order. -/
def checkOldest (oldest : Option SegmentId) :
    List SegmentId → List CatalogEntry → Except CatalogRefusal Unit
  | [], _ => .ok ()
  | id :: _, [] => .error (.notOldestPrefix id oldest)
  | id :: pending, entry :: segments => do
    ensure (entry.id = id) (.notOldestPrefix id (some entry.id))
    checkOldest oldest pending segments

/-- The candidates that the catalog still lists, when they are its oldest segments. -/
def oldestPrefix (catalog : WalPublicationCatalog) (candidates : List SegmentId) :
    Except CatalogRefusal (List SegmentId) := do
  let pending := candidates.filter (catalog.anchor.id < ·)
  checkOldest (catalog.segments.head?.map (·.id)) pending catalog.segments
  return pending

/-- Check that the entries are the expected ones. -/
def checkUnchanged : List CatalogEntry → List CatalogEntry → Except CatalogRefusal Unit
  | actual :: segments, entry :: expected => do
    ensure (actual = entry) (.changed entry.id)
    checkUnchanged segments expected
  | _, _ => .ok ()

/-- Drop the oldest segments; the last of them is the anchor from then on. -/
def retireOldest (catalog : WalPublicationCatalog) (count generation : ℕ) :
    WalPublicationCatalog :=
  match (catalog.segments.take count).getLast? with
  | none => catalog
  | some last => { catalog with
      anchor := last.link
      retiredBy := generation
      segments := catalog.segments.drop count }

/-- Retire the oldest segments, which have to be the expected ones. Returns their ids. -/
def retirePrefix (fencingEpoch : ℕ) (expected : List CatalogEntry) (generation : ℕ) :
    Update CatalogRefusal WalPublicationCatalog (List SegmentId) := do
  let catalog ← get
  Update.check (catalog.requireEpoch fencingEpoch)
  Update.check <| ensure (generation ≠ 0 ∧ catalog.retiredBy ≤ generation) <|
    .generationRegression catalog.retiredBy generation
  let pending ← Update.check (catalog.oldestPrefix (expected.map (·.id)))
  Update.check (checkUnchanged catalog.segments (expected.filter (·.id ∈ pending)))
  modify fun catalog => catalog.retireOldest pending.length generation
  return pending

/-- Set aside every entry from `start` on, which have to be the expected ones, and raise
    the sequence floor. Returns whether the catalog has changed. -/
def setAsideSuffix (fencingEpoch : ℕ) (start : Option SegmentId) (expected : List CatalogEntry)
    (floor : ℕ) : Update CatalogRefusal WalPublicationCatalog Bool := do
  let catalog ← get
  Update.check (catalog.requireEpoch fencingEpoch)
  let kept := start.elim catalog.segments.length fun start =>
    partitionPoint (·.id < start) catalog.segments
  Update.check <| ensure (catalog.segments.drop kept = expected) <|
    .notSuffix (start.getD catalog.nextSegmentId)
  modify fun catalog => { catalog with
    segments := catalog.segments.take kept
    seqFloor := max catalog.seqFloor floor }
  return decide (kept < catalog.segments.length ∨ catalog.seqFloor < floor)

end WalPublicationCatalog

/-- An operation of some writer on the catalog. -/
inductive CatalogOp
  | fence (writerEpoch : ℕ)
  | append (fencingEpoch : ℕ) (run : List CatalogEntry)
  | retire (fencingEpoch : ℕ) (expected : List CatalogEntry) (generation : ℕ)
  | setAside (fencingEpoch : ℕ) (start : Option SegmentId) (expected : List CatalogEntry)
      (floor : ℕ)

namespace CatalogOp

/-- The epoch of the writer. -/
def epoch : CatalogOp → ℕ
  | .fence epoch | .append epoch _ | .retire epoch _ _ | .setAside epoch _ _ _ => epoch

/-- The writer only publishes verified uploads. -/
def Verified : CatalogOp → Prop
  | .append _ run => ∀ entry ∈ run, entry.Uploaded
  | _ => True

/-- Apply an operation. -/
def apply : CatalogOp → Update CatalogRefusal WalPublicationCatalog Unit
  | .fence epoch => discard (fenceTo epoch)
  | .append epoch run => discard (appendRun epoch run)
  | .retire epoch expected generation =>
    discard (retirePrefix epoch expected generation)
  | .setAside epoch start expected floor =>
    discard (setAsideSuffix epoch start expected floor)

end CatalogOp

end Midge
