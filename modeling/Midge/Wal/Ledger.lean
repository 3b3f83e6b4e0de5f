import Midge.Wal.Link

/-!
# The WAL segment ledger

The ledger says which segment files are history, their order, how they chain, the
next segment id, and which sequences may have been handed out. Its members are the
segments that recovery replays, from the oldest; the newest one is open, the others
are sealed. The first one names the link of the last retired segment, the anchor.

An edit checks all it requires and then changes the ledger in place
(`WalLedger.apply`). The ledger is written to disk as an image, and an image is
validated when it is read (`LedgerImage.tryFrom`).
-/

namespace Midge

open Update

/-- The identity of the database a ledger belongs to. -/
abbrev HolderId := Vector Byte 16

/-- One ledger member: its header facts and, once sealed, its footer facts. -/
structure Member where
  openFacts : OpenFacts
  sealed : Option SealedFacts
  /-- Prefix fsynced before acknowledgement. -/
  durableBytes : Option ℕ
  deriving DecidableEq, Repr

namespace Member

def id (member : Member) : SegmentId := member.openFacts.id

/-- A new open member. -/
def opened (openFacts : OpenFacts) : Member where
  openFacts := openFacts
  sealed := none
  durableBytes := some segmentHeaderLen

/-- Reseal a member with a prefix of it. -/
def reseal (cut : SealedFacts) (member : Member) : Member :=
  { member with
    sealed := some cut
    durableBytes := member.durableBytes.map (min · cut.dataLen) }

end Member

/-- One change to the ledger. -/
inductive LedgerEdit
  /-- Seal the open member, and open the next one. -/
  | rotate (sealed : SealedFacts) (openFacts : OpenFacts)
  /-- Replace the open member. -/
  | reopen (openFacts : OpenFacts)
  /-- Retire every member below `below`. -/
  | advanceLogStart (below : SegmentId)
  /-- Salvage: drop every member from `start` on, reseal the last kept one with the
      prefix that replay applied, and open a new one. -/
  | setAside (start : SegmentId) (cut : Option SealedFacts) (openFacts : OpenFacts)
  /-- Drop every member, and continue from a history this ledger did not write. -/
  | rebase (anchor : ChainLink) (openFacts : OpenFacts)
  /-- Raise the sequence reservation. -/
  | reserve (through : ℕ)
  /-- Record a byte boundary of the open segment, after its fsync. -/
  | syncOpen (id : SegmentId) (throughBytes : ℕ)
  /-- Permit cutting the open file to its verified prefix. -/
  | salvageOpen (id : SegmentId) (validBytes floor : ℕ)
  deriving DecidableEq, Repr

/-- Why an edit cannot apply, or why an image is not that of a ledger. -/
inductive LedgerError
  | notOpenSegment (sealsSegment openSegment : SegmentId)
  | notNextSegment (opens nextSegmentId : SegmentId)
  | badLogStart (below logStart openSegment : SegmentId)
  | badSetAside (start opens logStart nextSegmentId : SegmentId)
  | brokenChain (reason : String)
  | reservationNotRaised (through reservedThrough : ℕ)
  | segmentIdsExhausted
  | unreachableState (reason : String)
  deriving DecidableEq, Repr

/-- The WAL segment ledger. -/
structure WalLedger where
  holder : HolderId
  /-- The link the first member names. -/
  anchor : ChainLink
  /-- The last is the open segment. -/
  members : List Member
  /-- The id the next rotation opens. -/
  nextSegmentId : SegmentId
  /-- Every sequence handed out is at or below this. -/
  seqReservedThrough : ℕ
  nonempty : members ≠ []
  deriving DecidableEq

/-- The id after `id`. -/
def following (id : SegmentId) : Except LedgerError SegmentId :=
  if id + 1 ≤ usizeMax then .ok (id + 1) else .error .segmentIdsExhausted

/-- Whether a segment may follow `prev`. -/
def opensAfter (facts : OpenFacts) (prev : ChainLink) (epoch : Option ℕ) :
    Except LedgerError Unit :=
  (follows prev epoch facts).mapError .brokenChain

/-- The debug form of a link. -/
def ChainLink.debug (link : ChainLink) : String :=
  s!"ChainLink \x7b id: {link.id}, last_seq: {link.lastSeq}, digest: {link.digest.toList} \x7d"

/-- The debug form of the footer facts. -/
def SealedFacts.debug (facts : SealedFacts) : String :=
  s!"SealedFacts \x7b link: {facts.link.debug}, record_count: {facts.recordCount}" ++
    s!", data_len: {facts.dataLen}, max_seq_per_cf: {facts.maxSeqPerCf} \x7d"

/-- The footer facts agree with the header of the segment. -/
def sealsConsistent (facts : OpenFacts) (sealed : SealedFacts) : Bool :=
  if sealed.recordCount = 0 then
    decide (sealed.link.lastSeq = facts.prev.lastSeq) && sealed.maxSeqPerCf.isEmpty
  else
    decide (facts.firstSeq ≤ sealed.link.lastSeq) &&
      sealed.maxSeqPerCf.all fun entry =>
        decide (facts.firstSeq ≤ entry.2) && decide (entry.2 ≤ sealed.link.lastSeq)

/-- Whether the footer facts can seal the segment. -/
def seals (facts : OpenFacts) (sealed : SealedFacts) : Except LedgerError Unit :=
  ensure (sealsConsistent facts sealed ∧ sealed.link.id = facts.id)
    (.brokenChain
      (s!"the facts {sealed.debug} cannot seal segment {facts.id} starting at " ++
        s!"{facts.firstSeq}"))

namespace WalLedger

/-- The ledger of a new history. -/
def genesis (holder : HolderId) (anchor : ChainLink) (facts : OpenFacts) :
    Except LedgerError WalLedger := do
  opensAfter facts anchor none
  let next ← following facts.id
  return {
    holder
    anchor
    members := [.opened facts]
    nextSegmentId := next
    seqReservedThrough := 0
    nonempty := by simp }

section Views

variable (ledger : WalLedger)

/-- The open member, the newest. -/
def openMember : Member := ledger.members.getLast ledger.nonempty

/-- The open segment. -/
def openSegment : SegmentId := ledger.openMember.id

/-- The id of the oldest member. -/
def logStart : SegmentId := (ledger.members.head ledger.nonempty).id

/-- The newest writer epoch that wrote this history. -/
def newestEpoch : ℕ := (ledger.members.map (·.openFacts.epoch)).max?.getD 0

def expectNext (opens : SegmentId) : Except LedgerError Unit :=
  ensure (opens = ledger.nextSegmentId) (.notNextSegment opens ledger.nextSegmentId)

/-- Replace the open member. -/
def setOpen (member : Member) : WalLedger :=
  { ledger with members := ledger.members.dropLast ++ [member], nonempty := by simp }

def pushBack (member : Member) : WalLedger :=
  { ledger with members := ledger.members ++ [member], nonempty := by simp }

/-- The open member is not below `below`, and so it stays when those below go. -/
theorem retained_ne_nil {ledger : WalLedger} {below : SegmentId} (h : below ≤ ledger.openSegment) :
    ledger.members.drop (partitionPoint (·.id < below) ledger.members) ≠ [] := by
  rw [drop_partitionPoint]
  intro hnil
  have := List.dropWhile_eq_nil_iff.1 hnil _ (List.getLast_mem ledger.nonempty)
  simp only [decide_eq_true_eq] at this
  exact absurd h (not_le.2 this)

end Views

/-! ## Edits -/

/-- Seal the open member, and open the next one. -/
def rotate (sealed : SealedFacts) (facts : OpenFacts) : Update LedgerError WalLedger Unit := do
  let ledger ← get
  let member := ledger.openMember
  check <| ensure (sealed.link.id = member.id) <|
    .notOpenSegment sealed.link.id member.id
  check (ledger.expectNext facts.id)
  check (seals member.openFacts sealed)
  check (opensAfter facts sealed.link (some member.openFacts.epoch))
  let next ← check (following facts.id)
  modify fun ledger => ledger.setOpen { ledger.openMember with sealed := some sealed }
  modify fun ledger => ledger.pushBack (.opened facts)
  modify fun ledger => { ledger with nextSegmentId := next }

/-- Replace the open member. -/
def reopen (facts : OpenFacts) : Update LedgerError WalLedger Unit := do
  let ledger ← get
  let replaced := ledger.openMember.openFacts
  check (ledger.expectNext facts.id)
  check (opensAfter facts replaced.prev (some replaced.epoch))
  let next ← check (following facts.id)
  modify fun ledger => ledger.setOpen (.opened facts)
  modify fun ledger => { ledger with nextSegmentId := next }

/-- Retire every member below `below`. -/
def advanceLogStart (below : SegmentId) : Update LedgerError WalLedger Unit := do
  let ledger ← get
  if h : ledger.logStart < below ∧ below ≤ ledger.openSegment then
    let retired := partitionPoint (·.id < below) ledger.members
    let anchor := ((ledger.members.take retired).getLast?.bind (·.sealed)).elim ledger.anchor
      (·.link)
    set { ledger with
      members := ledger.members.drop retired
      anchor
      nonempty := retained_ne_nil h.2 }
  else throw (.badLogStart below ledger.logStart ledger.openSegment)

/-- The link that the segment opened after setting members aside names. -/
def setAsidePrev (anchor : ChainLink) :
    Option Member → Option SealedFacts → Except LedgerError ChainLink
  | some last, some cut => do
    ensure (cut.link.id = last.id) <| .brokenChain
      s!"the cut seals segment {cut.link.id} but the last kept member is {last.id}"
    seals last.openFacts cut
    return cut.link
  | some last, none =>
    match last.sealed with
    | some sealed => return sealed.link
    | none => .error <| .brokenChain s!"the kept member {last.id} is unsealed and nothing cuts it"
  | none, some cut => .error <| .brokenChain
      s!"the cut seals segment {cut.link.id} but no member is kept"
  | none, none => return anchor

/-- Reseal the last of the members kept, when it is cut. -/
def cutLast (kept : List Member) : Option SealedFacts → List Member
  | none => kept
  | some cut => kept.modifyLast (·.reseal cut)

/-- Drop every member from `start` on, and open a new one. -/
def setAside (start : SegmentId) (cut : Option SealedFacts) (facts : OpenFacts) :
    Update LedgerError WalLedger Unit := do
  let ledger ← get
  check <| ensure (ledger.logStart ≤ start ∧ ledger.nextSegmentId ≤ facts.id) <|
    .badSetAside start facts.id ledger.logStart ledger.nextSegmentId
  let kept := partitionPoint (·.id < start) ledger.members
  let prev ← check
    (setAsidePrev ledger.anchor (ledger.members.take kept).getLast? cut)
  check (opensAfter facts prev (some ledger.newestEpoch))
  let next ← check (following facts.id)
  modify fun ledger => { ledger with
    members := cutLast (ledger.members.take kept) cut ++ [.opened facts]
    nonempty := by simp }
  modify fun ledger => { ledger with nextSegmentId := next }

/-- Drop every member, and continue from another history. -/
def rebase (anchor : ChainLink) (facts : OpenFacts) : Update LedgerError WalLedger Unit := do
  let ledger ← get
  check <| ensure (ledger.nextSegmentId ≤ facts.id) <|
    .notNextSegment facts.id ledger.nextSegmentId
  check (opensAfter facts anchor (some ledger.newestEpoch))
  let next ← check (following facts.id)
  modify fun ledger => { ledger with members := [.opened facts], nonempty := by simp }
  modify fun ledger => { ledger with anchor }
  modify fun ledger => { ledger with nextSegmentId := next }

/-- Cut the byte boundary of the open member, and raise the reservation. -/
def salvageOpen (id : SegmentId) (validBytes floor : ℕ) : Update LedgerError WalLedger Unit := do
  let ledger ← get
  check <| ensure (id = ledger.openSegment ∧ segmentHeaderLen ≤ validBytes) <|
    .brokenChain "invalid open WAL salvage boundary"
  modify fun ledger => ledger.setOpen { ledger.openMember with
    durableBytes := some (ledger.openMember.durableBytes.elim validBytes (min · validBytes)) }
  modify fun ledger => { ledger with seqReservedThrough := max ledger.seqReservedThrough floor }

/-- Advance the byte boundary of the open member. -/
def syncOpen (id : SegmentId) (throughBytes : ℕ) : Update LedgerError WalLedger Unit := do
  let ledger ← get
  let member := ledger.openMember
  check <|
    ensure (id = member.id ∧ member.durableBytes.getD segmentHeaderLen ≤ throughBytes) <|
      .brokenChain "WAL sync boundary must advance the open member"
  modify fun ledger =>
    ledger.setOpen { ledger.openMember with durableBytes := some throughBytes }

/-- Raise the sequence reservation. -/
def reserve (through : ℕ) : Update LedgerError WalLedger Unit := do
  let ledger ← get
  check <| ensure (ledger.seqReservedThrough < through) <|
    .reservationNotRaised through ledger.seqReservedThrough
  modify fun ledger => { ledger with seqReservedThrough := through }

/-- Apply one edit. -/
def apply : LedgerEdit → Update LedgerError WalLedger Unit
  | .rotate sealed facts => rotate sealed facts
  | .reopen facts => reopen facts
  | .advanceLogStart below => advanceLogStart below
  | .setAside start cut facts => setAside start cut facts
  | .rebase anchor facts => rebase anchor facts
  | .reserve through => reserve through
  | .syncOpen id throughBytes => syncOpen id throughBytes
  | .salvageOpen id validBytes floor => salvageOpen id validBytes floor

end WalLedger

/-! ## Images -/

/-- The serialized form of a ledger. -/
structure LedgerImage where
  holder : HolderId
  anchor : ChainLink
  members : List Member
  nextSegmentId : SegmentId
  seqReservedThrough : ℕ
  deriving DecidableEq, Repr

/-- The image of a ledger. -/
def WalLedger.image (ledger : WalLedger) : LedgerImage where
  holder := ledger.holder
  anchor := ledger.anchor
  members := ledger.members
  nextSegmentId := ledger.nextSegmentId
  seqReservedThrough := ledger.seqReservedThrough

/-- The byte boundary of a member is within its segment. -/
def Member.boundaryValid (member : Member) : Bool :=
  member.durableBytes.all fun bytes =>
    decide (segmentHeaderLen ≤ bytes) && member.sealed.all (bytes ≤ ·.dataLen)

/-- Whether the members chain from `prev`. -/
def checkChain : ChainLink → Option ℕ → List Member → Except LedgerError Unit
  | _, _, [] => .ok ()
  | prev, epoch, member :: members => do
    ensure member.boundaryValid (.unreachableState "invalid durable WAL byte boundary")
    (opensAfter member.openFacts prev epoch).mapError fun _ =>
      .unreachableState "the members do not chain"
    match member.sealed with
    | none => checkChain prev (some member.openFacts.epoch) members
    | some facts =>
      (seals member.openFacts facts).mapError fun _ =>
        .unreachableState "a member's facts do not seal it"
      checkChain facts.link (some member.openFacts.epoch) members

/-- The ledger of an image. -/
def LedgerImage.tryFrom (image : LedgerImage) : Except LedgerError WalLedger :=
  if h : image.members = [] then .error (.unreachableState "the ledger has no open segment")
  else do
    let last := image.members.getLast h
    ensure (last.sealed.isNone ∧ image.members.dropLast.all (·.sealed.isSome))
      (.unreachableState "only the open segment is unsealed")
    ensure (last.id + 1 ≤ usizeMax ∧ last.id + 1 = image.nextSegmentId)
      (.unreachableState "the next segment id does not follow the open segment")
    checkChain image.anchor none image.members
    return {
      holder := image.holder
      anchor := image.anchor
      members := image.members
      nextSegmentId := image.nextSegmentId
      seqReservedThrough := image.seqReservedThrough
      nonempty := h }

end Midge
