import Midge.Wal.Catalog
import Midge.Wal.Ledger

/-!
# Recovery planning

Which WAL segments recovery replays, in which order and from where, what salvage sets
aside, and how the local history continues. `lineage` places the ledger of a cache
against the catalog; `plan` admits the segments in chain order from the anchor of the
catalog on: its entries and then, when the ledger joins it, the members of the ledger
after the head of the catalog. The first one that is missing, damaged or breaks the
chain is the hole. Strict recovery refuses it; salvage replays what comes before it,
and sets the rest aside.

What the segments hold is read by an adapter, and given to the planner as probes.
-/

namespace Midge

/-- How recovery treats damage. -/
inductive RecoveryPolicy
  | strict
  | salvage
  deriving DecidableEq, Repr

/-- Where the ledger of a cache stands against the catalog. -/
inductive Lineage
  /-- There is no ledger. -/
  | fresh
  /-- The chain of the ledger holds the head of the catalog. -/
  | joined
  /-- The catalog has lost history that this cache has retired. -/
  | behind (covered : Bool)
  /-- Another writer has extended the catalog. -/
  | diverged
  deriving DecidableEq, Repr

/-- Whether the chain of the ledger holds a link. -/
def WalLedger.holdsLink (ledger : WalLedger) (link : ChainLink) : Bool :=
  decide (ledger.anchor = link) ||
    (ledger.members.filterMap (·.sealed)).any fun sealed => decide (sealed.link = link)

/-- Place a ledger against the catalog. -/
def lineage (catalog : WalPublicationCatalog) : Option WalLedger → Lineage
  | none => .fresh
  | some ledger =>
    let head := catalog.head
    let inChain := ledger.holdsLink head
    -- The first member after the head continues the catalog only when the catalog
    -- never handed out its id.
    let continues := ((ledger.members.map (·.id)).find? (head.id < ·)).getD ledger.openSegment
    if inChain ∧ catalog.nextSegmentId ≤ continues then .joined
    else if ¬ inChain ∧ head.id < ledger.anchor.id then
      .behind (decide (ledger.anchor.lastSeq ≤ catalog.seqFloor))
    else .diverged

/-! ## Probes -/

/-- What ends the verified prefix of an open member. -/
inductive OpenEnd
  /-- The end of the file. -/
  | whole
  /-- An incomplete frame that a crash has left. -/
  | torn
  /-- Damage; `suffixMax` is the highest sequence of a verified frame past it. -/
  | damaged (reason : String) (suffixMax : ℕ)
  deriving DecidableEq, Repr

def OpenEnd.isDamaged : OpenEnd → Bool
  | .damaged _ _ => true
  | .whole | .torn => false

/-- The open member as far as it verifies. -/
structure OpenProbe where
  header : SegmentHeader
  /-- The length of the file. -/
  len : ℕ
  /-- Where the verified prefix ends. -/
  validBytes : ℕ
  recordCount : ℕ
  /-- The highest sequence of the verified prefix. -/
  maxSequence : ℕ
  ending : OpenEnd
  deriving DecidableEq, Repr

/-- What reading one segment has found. -/
inductive Probe
  /-- A sealed segment that has verified whole: its header, and the link of its footer. -/
  | sealed (header : SegmentHeader) (link : ChainLink)
  /-- The open member. -/
  | opened (probe : OpenProbe)
  /-- The segment cannot be replayed; `maxVerified` is the highest sequence of a verified
      frame in it. -/
  | damaged (reason : String) (maxVerified : ℕ)
  deriving DecidableEq, Repr

/-- The highest sequence that verified frames hold. -/
def Probe.verified : Probe → ℕ
  | .sealed _ link => link.lastSeq
  | .opened probe =>
    match probe.ending with
    | .damaged _ suffixMax => max probe.maxSequence suffixMax
    | .whole | .torn => probe.maxSequence
  | .damaged _ maxVerified => maxVerified

/-- The probes, by segment id: of the published objects, and of the members of the
    ledger. -/
structure Probes where
  remote : SegmentId → Option Probe
  cached : SegmentId → Option Probe

/-! ## Plans -/

/-- Where replay reads a segment: the published object, or the cache. -/
inductive Source
  | remote
  | cache
  deriving DecidableEq, Repr

/-- What replay checks the header and the footer of a segment against. -/
inductive Expectation
  | member (member : Member) (holder : HolderId)
  | published (entry : CatalogEntry)
  deriving DecidableEq

/-- One segment that replay reads. -/
structure PlannedSegment where
  id : SegmentId
  source : Source
  /-- Only the last segment may be open. -/
  sealed : Bool
  expect : Expectation
  deriving DecidableEq

/-- A published object, to be replayed. -/
def CatalogEntry.planned (entry : CatalogEntry) : PlannedSegment :=
  ⟨entry.id, .remote, true, .published entry⟩

/-- A member of the ledger, to be replayed. -/
def WalLedger.planned (ledger : WalLedger) (member : Member) : PlannedSegment :=
  ⟨member.id, .cache, member.sealed.isSome, .member member ledger.holder⟩

/-- What a replayed segment holds. -/
structure SegmentFacts where
  maxSequence : ℕ
  writerEpoch : ℕ
  deriving DecidableEq, Repr

/-- How the ledger of the cache continues. -/
inductive HistoryAction
  /-- A new history. -/
  | genesis (anchor : ChainLink) (openAtLeast : SegmentId)
  /-- The ledger stands; the catalog has retired the members below. -/
  | keep (retireLocalBelow : Option SegmentId)
  /-- The members from `start` on are set aside. -/
  | setAside (start openAtLeast : SegmentId)
  /-- Every member is set aside, and the history continues from the anchor. -/
  | rebase (anchor : ChainLink) (openAtLeast : SegmentId)
  deriving DecidableEq, Repr

/-- Cut the open member back, keeping a copy of the original when `retain`. -/
structure OpenCut where
  id : SegmentId
  validBytes : ℕ
  retain : Bool
  deriving DecidableEq, Repr

/-- A recovery plan. -/
structure RecoveryPlan where
  /-- The link that the first planned segment must name. -/
  anchor : ChainLink
  /-- The segments that replay reads, in order. -/
  replay : List PlannedSegment
  remoteSegments : SegmentId → Option SegmentFacts
  localSegments : SegmentId → Option SegmentFacts
  openedInSalvageMode : Bool
  /-- New writes start above it. -/
  maxUnreplayedSequence : ℕ
  /-- The floor that the catalog must hold before the ledger changes. -/
  catalogFloor : ℕ
  /-- The first published segment that is set aside. -/
  retireCatalogFrom : Option SegmentId
  setAsideEntries : List CatalogEntry
  history : HistoryAction
  openCut : Option OpenCut

/-- Why recovery cannot go on. -/
inductive PlanError
  | unreplayable (reason : String)
  | catalogBehind (reason : String)
  deriving DecidableEq, Repr

def PlanError.toMidge : PlanError → MidgeError
  | .unreplayable reason => .recoveryFailed s!"WAL source validation failed: {reason}"
  | .catalogBehind reason => .corruption reason

/-- The plan of a local WAL: every member of the ledger, in order. -/
def localPlan (ledger : WalLedger) : RecoveryPlan where
  anchor := ledger.anchor
  replay := ledger.members.map ledger.planned
  remoteSegments _ := none
  localSegments _ := none
  openedInSalvageMode := false
  maxUnreplayedSequence := 0
  catalogFloor := 0
  retireCatalogFrom := none
  setAsideEntries := []
  history := .keep none
  openCut := none

/-- The first position that recovery cannot replay. -/
structure Hole where
  id : SegmentId
  reason : String
  deriving DecidableEq, Repr

/-! ## Segments that are as expected -/

/-- The debug form of the header facts. -/
def OpenFacts.debug (facts : OpenFacts) : String :=
  s!"OpenFacts \x7b id: {facts.id}, epoch: {facts.epoch}, first_seq: {facts.firstSeq}" ++
    s!", prev: {facts.prev.debug} \x7d"

/-- Whether the header is the one that the ledger has recorded for the member. -/
def expectedHeader (ledger : WalLedger) (member : Member) (header : SegmentHeader) :
    Except String Unit := do
  ensure (header.holder = ledger.holder)
    s!"WAL segment {member.id} header names another holder than this ledger's"
  ensure (header.openFacts = member.openFacts)
    (s!"WAL segment {member.id} header {header.openFacts.debug} is not the ledger's " ++
      s!"{member.openFacts.debug}")

/-- The header of a published object, when it is the segment that the entry names. -/
def published (entry : CatalogEntry) : Option Probe → Except String SegmentHeader
  | some (.sealed header link) => do
    ensure (header.id = entry.id ∧ header.epoch = entry.epoch ∧ header.prev = entry.prev ∧
        link = entry.link)
      s!"cloud WAL '{entry.objectKey}' is not the segment its catalog entry names"
    return header
  | some (.damaged reason _) => .error reason
  | some (.opened _) | none => .error s!"cloud WAL '{entry.objectKey}' was not read whole"

/-- The header of a sealed member, when its file is the segment that the ledger has
    recorded. -/
def sealedMember (ledger : WalLedger) (member : Member) : Option Probe → Except String SegmentHeader
  | some (.sealed header link) => do
    expectedHeader ledger member header
    ensure (member.sealed.map (·.link) = some link)
      s!"WAL segment {member.id} seals another link than the ledger recorded"
    return header
  | some (.damaged reason _) => .error reason
  | some (.opened _) | none => .error s!"sealed WAL segment {member.id} was not read whole"

/-- Admit a segment to the chain, sealed by `link`. -/
def admitSealed (chain : Chain) (header : SegmentHeader) (id : SegmentId) (link : ChainLink) :
    Except String Chain := do
  let chain ← (chain.admitSegment header id).mapError MidgeError.display
  return chain.sealWith link

/-! ## The planner -/

structure Planner where
  salvage : Bool
  chain : Chain
  replay : List PlannedSegment
  remoteSegments : SegmentId → Option SegmentFacts
  localSegments : SegmentId → Option SegmentFacts
  salvaged : Bool
  openCut : Option OpenCut
  /-- The highest sequence past the cut of an open member. -/
  cutFloor : ℕ

/-- The member with the id; the members go up in id, and so a binary search finds it. -/
def WalLedger.expected (ledger : WalLedger) (id : SegmentId) : Option Member :=
  ledger.members.find? (·.id = id)

namespace Planner

/-- A planner that has admitted nothing. -/
def new (salvage : Bool) (anchor : ChainLink) : Planner where
  salvage
  chain := .new (some anchor)
  replay := []
  remoteSegments _ := none
  localSegments _ := none
  salvaged := false
  openCut := none
  cutFloor := 0

variable (probes : Probes)

/-- Replay a published object. -/
def admitRemote (planner : Planner) (entry : CatalogEntry) : Except String Planner := do
  let header ← published entry (probes.remote entry.id)
  let chain ← admitSealed planner.chain header entry.id entry.link
  return { planner with
    chain
    replay := planner.replay ++ [entry.planned]
    remoteSegments := Function.update planner.remoteSegments entry.id
      (some ⟨entry.maxSequence, entry.epoch⟩) }

/-- Replay a sealed member of the ledger. -/
def admitMember (planner : Planner) (ledger : WalLedger) (member : Member) (sealed : SealedFacts) :
    Except String Planner := do
  let header ← sealedMember ledger member (probes.cached member.id)
  let chain ← admitSealed planner.chain header member.id sealed.link
  return { planner with
    chain
    replay := planner.replay ++ [ledger.planned member]
    localSegments := Function.update planner.localSegments member.id
      (some ⟨sealed.link.lastSeq, header.epoch⟩) }

/-- Replay the copy of a published segment that the ledger has, when it is the same
    segment. -/
def fallBack (planner : Planner) (ledger : WalLedger) (entry : CatalogEntry) : Option Planner := do
  let member ← ledger.expected entry.id
  let sealed ← member.sealed
  guard (sealed.link = entry.link)
  (planner.admitMember probes ledger member sealed).toOption

/-- Admit the entries of the catalog. -/
def admitCatalog (joined : Option WalLedger) : Planner → List CatalogEntry → Planner × Option Hole
  | planner, [] => (planner, none)
  | planner, entry :: entries =>
    match planner.admitRemote probes entry with
    | .ok planner => admitCatalog joined planner entries
    | .error reason =>
      match joined.filter (fun _ => planner.salvage) |>.bind
          fun ledger => planner.fallBack probes ledger entry with
      | none => (planner, some ⟨entry.id, reason⟩)
      | some planner => admitCatalog joined { planner with salvaged := true } entries

/-- The open member that its probe has read, when it is the one that the ledger has
    recorded and follows the chain. -/
def openProbe (planner : Planner) (ledger : WalLedger) (member : Member) :
    Except String (OpenProbe × Chain) :=
  match probes.cached member.id with
  | some (.opened probe) => do
    expectedHeader ledger member probe.header
    let chain ← (planner.chain.admitSegment probe.header member.id).mapError MidgeError.display
    return (probe, chain)
  | some (.damaged reason _) => .error reason
  | some (.sealed _ _) | none => .error s!"open WAL segment {member.id} was not read"

/-- Keep what is verified of the open member, with the cut when bytes follow. -/
def admitPrefix (planner : Planner) (ledger : WalLedger) (member : Member) (probe : OpenProbe)
    (retain : Bool) : Planner :=
  let planner := if probe.validBytes ≠ probe.len ∨ probe.ending.isDamaged then
      { planner with openCut := some ⟨member.id, probe.validBytes, retain⟩ }
    else planner
  let expected := if planner.openCut.isSome then
      { member with durableBytes := member.durableBytes.map (min · probe.validBytes) }
    else member
  if 0 < probe.recordCount then
    { planner with replay := planner.replay ++ [ledger.planned expected] }
  else planner

/-- Admit the open member: replay its verified prefix. -/
def admitOpen (planner : Planner) (ledger : WalLedger) (member : Member) :
    Except PlanError (Planner × Option Hole) :=
  match planner.openProbe probes ledger member with
  | .error reason => .ok (planner, some ⟨member.id, reason⟩)
  | .ok (probe, chain) => do
    let planner := { planner with chain }
    match probe.ending with
    | .whole => return (planner.admitPrefix ledger member probe false, none)
    | .torn =>
      return (planner.admitPrefix ledger member probe (decide (probe.recordCount = 0)), none)
    | .damaged reason suffixMax =>
      ensure planner.salvage (.unreplayable s!"active WAL failed validation: {reason}")
      let planner := { planner with salvaged := true, cutFloor := suffixMax }
      return (planner.admitPrefix ledger member probe true, none)

/-- Admit the members of the ledger after the head of the catalog. -/
def admitTail (ledger : WalLedger) :
    Planner → List Member → Except PlanError (Planner × Option Hole)
  | planner, [] => .ok (planner, none)
  | planner, member :: members =>
    match member.sealed with
    | none => planner.admitOpen probes ledger member
    | some sealed =>
      match planner.admitMember probes ledger member sealed with
      | .ok planner => admitTail ledger planner members
      | .error reason => .ok (planner, some ⟨member.id, reason⟩)

/-- Admit the entries of the catalog and then, when there is no hole, the tail of the
    ledger that joins it. -/
def admitAll (planner : Planner) (catalog : WalPublicationCatalog) (joined : Option WalLedger) :
    Except PlanError (Planner × Option Hole) :=
  match planner.admitCatalog probes joined catalog.segments, joined with
  | (planner, none), some ledger =>
    planner.admitTail probes ledger (ledger.members.filter (catalog.head.id < ·.id))
  | (planner, hole), _ => .ok (planner, hole)

end Planner

/-- The highest sequence that the members from `start` on may hold: what the ledger has
    sealed into each, and what verified frames of each hold. -/
def setAsideMaximum (ledger : WalLedger) (start : SegmentId) (probes : Probes) : ℕ :=
  ((ledger.members.filter (start ≤ ·.id)).map fun member =>
    max (member.sealed.elim 0 (·.link.lastSeq)) ((probes.cached member.id).elim 0 (·.verified))
  ).max?.getD 0

/-- Whether the ledger keeps a member before the hole that the catalog has not retired. -/
def keptBefore (ledger : WalLedger) (retired hole : SegmentId) : Bool :=
  (ledger.members.map (·.id)).any fun id => decide (retired < id ∧ id < hole)

/-- The link before the first entry that is set aside. -/
def WalPublicationCatalog.headBefore (catalog : WalPublicationCatalog)
    (retireFrom : Option SegmentId) : ChainLink :=
  ((catalog.segments.takeWhile fun entry => retireFrom.all (entry.id < ·)).getLast?).elim
    catalog.anchor (·.link)

/-- The members that are set aside: from the hole on when the ledger joins the catalog,
    and otherwise all. -/
def Lineage.localFrom (lineage : Lineage) (hole : Option Hole) : Option SegmentId :=
  match lineage with
  | .joined => hole.map (·.id)
  | .fresh | .behind _ | .diverged => some 0

/-- The highest sequence that the members set aside may hold. -/
def localFloor (ledger : Option WalLedger) (lineage : Lineage) (hole : Option Hole)
    (probes : Probes) : ℕ :=
  (Option.map₂ (fun ledger start => setAsideMaximum ledger start probes) ledger
    (lineage.localFrom hole)).getD 0

/-- What the floor of the catalog must cover of the local history: that which was owed
    to it. -/
def owedFloor (ledger : Option WalLedger) (lineage : Lineage) (hole : Option Hole)
    (localFloor : ℕ) : ℕ :=
  match lineage with
  | .joined => if hole.isSome then localFloor else 0
  | .behind false => max localFloor (ledger.elim 0 (·.anchor.lastSeq))
  | .behind true | .fresh | .diverged => 0

/-- How the ledger continues. -/
def historyAction (catalog : WalPublicationCatalog) (ledger : Option WalLedger)
    (lineage : Lineage) (hole : Option Hole) (head : ChainLink) : HistoryAction :=
  match ledger, lineage with
  | none, _ | some _, .fresh => .genesis head catalog.nextSegmentId
  | some ledger, .joined =>
    match hole with
    | none => .keep (if ledger.logStart ≤ catalog.anchor.id then
        some (satAdd catalog.anchor.id 1) else none)
    | some hole =>
      if keptBefore ledger catalog.anchor.id hole.id then .setAside hole.id catalog.nextSegmentId
      else .rebase head catalog.nextSegmentId
  | some _, .behind _ | some _, .diverged => .rebase head catalog.nextSegmentId

/-- The plan, once the segments have been admitted up to the hole. -/
def Planner.finish (planner : Planner) (catalog : WalPublicationCatalog)
    (ledger : Option WalLedger) (lineage : Lineage) (hole : Option Hole) (probes : Probes) :
    RecoveryPlan :=
  let setAsideEntries := hole.elim [] fun hole => catalog.segments.filter (hole.id ≤ ·.id)
  let retireCatalogFrom := setAsideEntries.head?.map (·.id)
  let head := catalog.headBefore retireCatalogFrom
  let entriesFloor := (setAsideEntries.map (·.maxSequence)).max?.getD 0
  let localFloor := localFloor ledger lineage hole probes
  let catalogFloor := max (max (max catalog.seqFloor entriesFloor)
    (owedFloor ledger lineage hole localFloor)) planner.cutFloor
  { anchor := catalog.anchor
    replay := hole.elim planner.replay fun hole => planner.replay.filter (·.id < hole.id)
    remoteSegments := planner.remoteSegments
    localSegments := planner.localSegments
    openedInSalvageMode := planner.salvaged
    maxUnreplayedSequence := max (max catalogFloor head.lastSeq) localFloor
    catalogFloor
    retireCatalogFrom
    setAsideEntries
    history := historyAction catalog ledger lineage hole head
    openCut := planner.openCut }

/-- Plan cloud recovery. -/
def plan (policy : RecoveryPolicy) (catalog : WalPublicationCatalog) (ledger : Option WalLedger)
    (probes : Probes) : Except PlanError RecoveryPlan := do
  let lineage := lineage catalog ledger
  let salvage := decide (policy = .salvage)
  let joined := ledger.filter fun _ => decide (lineage = .joined)
  let admitted ← (Planner.new salvage catalog.anchor).admitAll probes catalog joined
  let hole := admitted.2
  ensure (lineage = Lineage.behind false → salvage)
    (.catalogBehind (s!"the cloud WAL catalog ends at segment {catalog.head.id} but this " ++
      s!"cache's history already retired through segment {ledger.elim 0 (·.anchor.id)}" ++
      ", and no sequence floor covers it"))
  hole.elim (.ok ()) fun hole => ensure salvage (.unreplayable hole.reason)
  let planner := { admitted.1 with
    salvaged := admitted.1.salvaged || decide (lineage = Lineage.behind false) || hole.isSome }
  return planner.finish catalog ledger lineage hole probes

end Midge
