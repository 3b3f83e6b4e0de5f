import Midge.Lib.Run
import Midge.Wal.LedgerSpec
import Midge.Wal.Planner

/-!
# What a recovery plan replays

The segments of a plan are contiguous: each one is read as a segment that follows the
one before it, from the anchor of the catalog on (`Contiguous`). Under strict recovery
no position is left out; under salvage the sequences of whatever is left out are at or
below the floor that the plan reports (`plan_spec`).

The planner admits segments one at a time. What it has admitted is a run of
`PlannedStep`s that ends where its chain stands (`Planner.Grows`); `admitCatalog` and
`admitTail` extend it by a prefix of the entries and of the members.
-/

namespace Midge

open List WalPublicationCatalog

/-! ## Runs of planned segments -/

/-- What an expectation asks of a sealed segment. -/
def Expectation.Meets : Expectation → SegmentHeader → ChainLink → Prop
  | .published entry, header, link => header.id = entry.id ∧ header.epoch = entry.epoch ∧
      header.prev = entry.prev ∧ link = entry.link
  | .member recorded holder, header, link => header.holder = holder ∧
      header.openFacts = recorded.openFacts ∧ recorded.sealed.map (·.link) = some link

/-- What the probe of a segment has found. -/
def Probes.read (probes : Probes) : Source → SegmentId → Option Probe
  | .remote => probes.remote
  | .cache => probes.cached

/-- A sealed segment has been read, it is the one that is expected, and it follows the
    link and the epoch before it. -/
def PlannedStep (probes : Probes) (before : ChainLink × Option ℕ) (segment : PlannedSegment)
    (after : ChainLink × Option ℕ) : Prop :=
  ∃ header link, probes.read segment.source segment.id = some (.sealed header link) ∧
    segment.sealed = true ∧ segment.expect.Meets header link ∧ header.id = segment.id ∧
    ChainRule before.1 before.2 header.openFacts ∧ after = (link, some header.epoch)

/-- The open segment has been read as far as it verifies, and it follows the link and
    the epoch before it. -/
def PlannedOpen (probes : Probes) (before : ChainLink × Option ℕ) (segment : PlannedSegment) :
    Prop :=
  ∃ probe member holder, probes.cached segment.id = some (.opened probe) ∧
    segment.source = .cache ∧ segment.sealed = false ∧ segment.expect = .member member holder ∧
    probe.header.holder = holder ∧ probe.header.openFacts = member.openFacts ∧
    probe.header.id = segment.id ∧ ChainRule before.1 before.2 probe.header.openFacts

/-- The segments follow one another from the anchor on; only the last one may be open. -/
def Contiguous (probes : Probes) (anchor : ChainLink) (segments : List PlannedSegment) : Prop :=
  ∃ run tail after, segments = run ++ tail ∧ Run (PlannedStep probes) (anchor, none) run after ∧
    (tail = [] ∨ ∃ segment, tail = [segment] ∧ PlannedOpen probes after segment)

/-! ## Ledgers and their members -/

/-- The last sequence of a sealed segment is not below that of the one before it. -/
theorem ChainRule.lastSeq_le {prev : ChainLink} {epoch : Option ℕ} {facts : OpenFacts}
    {sealed : SealedFacts} (h : ChainRule prev epoch facts) (hseals : seals facts sealed = .ok ()) :
    prev.lastSeq ≤ sealed.link.lastSeq ∧ sealed.link.id = facts.id := by
  rw [seals, ensure_eq_ok, sealsConsistent] at hseals
  refine ⟨?_, hseals.2⟩
  have hpast := h.past
  have hconsistent := hseals.1
  split_ifs at hconsistent
  · rw [Bool.and_eq_true, decide_eq_true_eq] at hconsistent
    rw [hconsistent.1, h.prev_eq]
  · rw [Bool.and_eq_true, decide_eq_true_eq] at hconsistent
    exact hpast.le.trans hconsistent.1

/-- One member is before another: in its id and, when both are sealed, in sequence. -/
def Member.Before (member member' : Member) : Prop :=
  member.id < member'.id ∧ ∀ facts ∈ member.sealed, ∀ facts' ∈ member'.sealed,
    facts.link.lastSeq ≤ facts'.link.lastSeq

variable {link : ChainLink}

theorem SealedRun.sorted {prev : ChainLink} {epoch epoch' : Option ℕ} {members : List Member}
    (h : SealedRun prev epoch members link epoch') :
    members.Pairwise Member.Before ∧ prev.id ≤ link.id ∧ (∀ member ∈ members,
      prev.id < member.id ∧ member.id ≤ link.id ∧ ∃ facts, member.sealed = some facts ∧
        facts.link.id = member.id ∧ prev.lastSeq ≤ facts.link.lastSeq) := by
  induction h with
  | nil => exact ⟨.nil, le_rfl, by simp⟩
  | @cons prev link epoch epoch' member facts members hrule hsealed hseals _ ih =>
    obtain ⟨hpairwise, hle, hafter⟩ := ih
    obtain ⟨hlast, hid⟩ := hrule.lastSeq_le hseals
    have hidlt : prev.id < facts.link.id := hid ▸ hrule.id
    refine ⟨pairwise_cons.2 ⟨fun m hm => ⟨?_, ?_⟩, hpairwise⟩, hidlt.le.trans hle,
      fun m hm => ?_⟩
    · exact hid.symm.trans_lt (hafter m hm).1
    · intro f hf f' hf'
      obtain ⟨-, -, facts', hfacts', -, hlast'⟩ := hafter m hm
      cases hf.symm.trans hsealed
      cases hf'.symm.trans hfacts'
      exact hlast'
    · rcases mem_cons.1 hm with rfl | hm
      · exact ⟨hrule.id, (hid.symm.le.trans hle : _), facts, hsealed, hid, hlast⟩
      · obtain ⟨hlt, hle', facts', hfacts', hid', hlast'⟩ := hafter m hm
        exact ⟨hidlt.trans hlt, hle', facts', hfacts', hid', hlast.trans hlast'⟩

variable {member : Member} {facts : SealedFacts}

namespace WalLedger

variable {ledger : WalLedger}

/-- The members of a chained ledger go up from the anchor. -/
theorem Chained.sorted (h : ledger.Chained) : ledger.members.Pairwise Member.Before ∧
    (∀ member ∈ ledger.members, ledger.anchor.id < member.id ∧
      ∀ facts ∈ member.sealed, facts.link.id = member.id) := by
  obtain ⟨kept, last, link, epoch, h⟩ := h
  obtain ⟨hpairwise, hle, hkept⟩ := h.run.sorted
  rw [h.members]
  refine ⟨pairwise_append.2 ⟨hpairwise, pairwise_singleton _ _, ?_⟩, ?_⟩
  · intro m hm m' hm'
    rw [mem_singleton.1 hm']
    refine ⟨(hkept m hm).2.1.trans_lt h.rule.id, fun _ _ f' hf' => ?_⟩
    cases hf'.symm.trans h.unsealed
  · intro m hm
    rcases mem_append.1 hm with hm | hm
    · obtain ⟨hlt, -, facts, hfacts, hid, -⟩ := hkept m hm
      refine ⟨hlt, fun f hf => ?_⟩
      cases hf.symm.trans hfacts
      exact hid
    · rw [mem_singleton.1 hm]
      refine ⟨hle.trans_lt h.rule.id, fun f hf => ?_⟩
      cases hf.symm.trans h.unsealed

/-- No member comes after the open one. -/
theorem Chained.le_open (h : ledger.Chained) {m : Member} (hmember : member ∈ ledger.members)
    (hunsealed : member.sealed = none) (hm : m ∈ ledger.members) : m.id ≤ member.id := by
  obtain ⟨kept, last, link, epoch, h⟩ := h
  obtain ⟨-, -, hkept⟩ := h.run.sorted
  rw [h.members, mem_append, mem_singleton] at hmember hm
  rcases hmember with hmember | rfl
  · obtain ⟨-, -, facts, hfacts, -⟩ := hkept member hmember
    cases hunsealed.symm.trans hfacts
  · rcases hm with hm | rfl
    · exact (hkept m hm).2.1.trans h.rule.id.le
    · exact le_rfl

/-- The members up to a link of the chain hold no later sequence. -/
theorem Chained.lastSeq_le (h : ledger.Chained) (hlink : ledger.holdsLink link)
    (hmember : member ∈ ledger.members) (hid : member.id ≤ link.id)
    (hfacts : member.sealed = some facts) : facts.link.lastSeq ≤ link.lastSeq := by
  obtain ⟨hpairwise, hmembers⟩ := h.sorted
  rw [holdsLink, Bool.or_eq_true, decide_eq_true_eq, any_eq_true] at hlink
  rcases hlink with rfl | ⟨sealed, hsealed, heq⟩
  · exact absurd hid (not_le.2 (hmembers member hmember).1)
  · rw [decide_eq_true_eq] at heq
    obtain ⟨m, hm, hmsealed⟩ := mem_filterMap.1 hsealed
    have hmid := (hmembers m hm).2 sealed hmsealed
    subst heq
    rcases eq_or_ne member m with rfl | hne
    · cases hfacts.symm.trans hmsealed
      exact le_rfl
    · have htotal : ledger.members.Pairwise fun a b => a.Before b ∨ b.Before a :=
        hpairwise.imp .inl
      have : Std.Symm fun a b : Member => a.Before b ∨ b.Before a := ⟨fun _ _ => Or.symm⟩
      rcases htotal.forall hmember hm hne with hbefore | hbefore
      · exact hbefore.2 facts hfacts sealed hmsealed
      · exact absurd hbefore.1 (not_lt.2 (hmid ▸ hid))

end WalLedger

/-! ## Admitting segments -/

/-- The chain after sealed segments. -/
def Chain.after (state : ChainLink × Option ℕ) : Chain := ⟨some state.1, state.2, false⟩

variable {header : SegmentHeader}

theorem admitSealed_after {state : ChainLink × Option ℕ} {id : SegmentId} {chain : Chain}
    (h : admitSealed (.after state) header id link = .ok chain) :
    header.id = id ∧ ChainRule state.1 state.2 header.openFacts ∧
      chain = .after (link, some header.epoch) := by
  simp only [admitSealed, except_bind_eq_ok, mapError_eq_ok, Chain.admitSegment_eq_ok] at h
  obtain ⟨_, ⟨-, hid, hrule, rfl⟩, h⟩ := h
  cases h
  exact ⟨hid, hrule, rfl⟩

variable {segments : List PlannedSegment} {ledger : WalLedger} {entry : CatalogEntry}
  {hole : Option Hole}

namespace Planner

variable {probes : Probes} {planner planner' planner'' : Planner}

/-- The planner has admitted some more sealed segments. -/
structure Grows (probes : Probes) (planner planner' : Planner) (segments : List PlannedSegment) :
    Prop where
  replay : planner'.replay = planner.replay ++ segments
  run : ∀ state, planner.chain = .after state → ∃ state',
    Run (PlannedStep probes) state segments state' ∧ planner'.chain = .after state'
  salvage : planner'.salvage = planner.salvage
  openCut : planner'.openCut = planner.openCut
  cutFloor : planner'.cutFloor = planner.cutFloor

theorem Grows.refl : Grows probes planner planner [] :=
  ⟨(append_nil _).symm, fun state h => ⟨state, .nil, h⟩, rfl, rfl, rfl⟩

theorem Grows.trans {segments' : List PlannedSegment} (h : Grows probes planner planner' segments)
    (h' : Grows probes planner' planner'' segments') :
    Grows probes planner planner'' (segments ++ segments') := by
  refine ⟨by rw [h'.replay, h.replay, append_assoc], fun state hstate => ?_,
    h'.salvage.trans h.salvage, h'.openCut.trans h.openCut, h'.cutFloor.trans h.cutFloor⟩
  obtain ⟨state', hrun, hstate'⟩ := h.run state hstate
  obtain ⟨state'', hrun', hstate''⟩ := h'.run state' hstate'
  exact ⟨state'', hrun.append hrun', hstate''⟩

theorem published_eq_ok {probe : Option Probe} (h : published entry probe = .ok header) :
    probe = some (.sealed header entry.link) ∧
      (Expectation.published entry).Meets header entry.link := by
  cases probe with
  | none => cases h
  | some probe =>
    cases probe with
    | «sealed» header' link =>
      simp only [published, except_bind_eq_ok, ensure_eq_ok] at h
      obtain ⟨_, ⟨hid, hepoch, hprev, rfl⟩, h⟩ := h
      cases h
      exact ⟨rfl, hid, hepoch, hprev, rfl⟩
    | opened _ | damaged _ _ => cases h

theorem sealedMember_eq_ok {probe : Option Probe} (hfacts : member.sealed = some facts)
    (h : sealedMember ledger member probe = .ok header) :
    probe = some (.sealed header facts.link) ∧
      (Expectation.member member ledger.holder).Meets header facts.link := by
  cases probe with
  | none => cases h
  | some probe =>
    cases probe with
    | «sealed» header' link =>
      simp only [sealedMember, expectedHeader, except_bind_eq_ok, ensure_eq_ok] at h
      obtain ⟨_, ⟨_, hholder, hopen⟩, _, hlink, h⟩ := h
      cases h
      rw [hfacts, Option.map_some, Option.some.injEq] at hlink
      subst hlink
      exact ⟨rfl, hholder, hopen, by rw [hfacts]; rfl⟩
    | opened _ | damaged _ _ => cases h

/-- A sealed segment is admitted when it is the one that is expected. -/
theorem grows_of_admitSealed {segment : PlannedSegment} {chain : Chain}
    {remote cached : SegmentId → Option SegmentFacts}
    (hprobe : probes.read segment.source segment.id = some (.sealed header link))
    (hsealed : segment.sealed = true) (hmeets : segment.expect.Meets header link)
    (hchain : admitSealed planner.chain header segment.id link = .ok chain) :
    Grows probes planner ⟨planner.salvage, chain, planner.replay ++ [segment], remote, cached,
      planner.salvaged, planner.openCut, planner.cutFloor⟩ [segment] := by
  refine ⟨rfl, fun state hstate => ?_, rfl, rfl, rfl⟩
  rw [hstate] at hchain
  obtain ⟨hid, hrule, rfl⟩ := admitSealed_after hchain
  exact ⟨_, .singleton ⟨header, link, hprobe, hsealed, hmeets, hid, hrule, rfl⟩, rfl⟩

/-- A published object is admitted. -/
theorem grows_admitRemote (h : planner.admitRemote probes entry = .ok planner') :
    Grows probes planner planner' [entry.planned] := by
  simp only [admitRemote, except_bind_eq_ok] at h
  obtain ⟨header, hheader, chain, hchain, h⟩ := h
  cases h
  obtain ⟨hprobe, hmeets⟩ := published_eq_ok hheader
  exact grows_of_admitSealed hprobe rfl hmeets hchain

/-- A sealed member is admitted. -/
theorem grows_admitMember (hfacts : member.sealed = some facts)
    (h : planner.admitMember probes ledger member facts = .ok planner') :
    Grows probes planner planner' [ledger.planned member] := by
  simp only [admitMember, except_bind_eq_ok] at h
  obtain ⟨header, hheader, chain, hchain, h⟩ := h
  cases h
  obtain ⟨hprobe, hmeets⟩ := sealedMember_eq_ok hfacts hheader
  exact grows_of_admitSealed hprobe (by simp [WalLedger.planned, hfacts]) hmeets hchain

/-- A segment stands for an entry of the catalog: it is its object or, under salvage, a
    copy of it that the ledger has. -/
def StandsFor (salvage : Bool) (joined : Option WalLedger) (segment : PlannedSegment)
    (entry : CatalogEntry) : Prop :=
  segment = entry.planned ∨ salvage = true ∧ ∃ ledger ∈ joined, ∃ member ∈ ledger.members,
    segment = ledger.planned member ∧ member.id = entry.id ∧
      member.sealed.map (·.link) = some entry.link

theorem of_fallBack (h : planner.fallBack probes ledger entry = some planner') :
    ∃ member ∈ ledger.members, member.id = entry.id ∧
      member.sealed.map (·.link) = some entry.link ∧
      Grows probes planner planner' [ledger.planned member] := by
  simp only [fallBack, Option.bind_eq_bind, Option.bind_eq_some_iff] at h
  obtain ⟨member, hmember, sealed, hsealed, _, hguard, hadmits⟩ := h
  have hlink : sealed.link = entry.link := by
    by_contra hne
    simp [guard, hne] at hguard
  refine ⟨member, mem_of_find?_eq_some hmember, by simpa using find?_some hmember,
    by simp [hsealed, hlink], ?_⟩
  cases hadmits' : planner.admitMember probes ledger member sealed with
  | error _ =>
    rw [hadmits'] at hadmits
    cases hadmits
  | ok _ =>
    rw [hadmits'] at hadmits
    cases hadmits
    exact grows_admitMember hsealed hadmits'

/-- Admitting the catalog: the segments admitted stand for its entries up to the hole. -/
theorem admitCatalog_spec {joined : Option WalLedger} {entries : List CatalogEntry}
    (h : admitCatalog probes joined planner entries = (planner', hole)) :
    ∃ before after segments, entries = before ++ after ∧
      Grows probes planner planner' segments ∧
      List.Forall₂ (StandsFor planner.salvage joined) segments before ∧
      (hole = none ∧ after = [] ∨ ∃ reason entry rest, hole = some ⟨entry.id, reason⟩ ∧
        after = entry :: rest) := by
  induction entries generalizing planner with
  | nil =>
    cases h
    exact ⟨[], [], [], rfl, .refl, .nil, .inl ⟨rfl, rfl⟩⟩
  | cons entry entries ih =>
    rw [admitCatalog] at h
    cases hremote : planner.admitRemote probes entry with
    | ok planner₁ =>
      rw [hremote] at h
      have hgrows := grows_admitRemote hremote
      obtain ⟨before, after, segments, rfl, hgrows', hstands, hend⟩ := ih h
      rw [hgrows.salvage] at hstands
      exact ⟨entry :: before, after, entry.planned :: segments, rfl, hgrows.trans hgrows',
        .cons (.inl rfl) hstands, hend⟩
    | error reason =>
      rw [hremote] at h
      simp only at h
      cases hfall : (joined.filter fun _ => planner.salvage).bind
          fun ledger => planner.fallBack probes ledger entry with
      | none =>
        rw [hfall] at h
        cases h
        exact ⟨[], entry :: entries, [], rfl, .refl, .nil, .inr ⟨reason, entry, entries, rfl, rfl⟩⟩
      | some planner₁ =>
        rw [hfall] at h
        obtain ⟨ledger, hledger, hfall⟩ := Option.bind_eq_some_iff.1 hfall
        obtain ⟨hjoined, hsalvage⟩ := Option.filter_eq_some_iff.1 hledger
        obtain ⟨member, hmember, hid, hlink, hgrows⟩ := of_fallBack hfall
        have hgrows₁ : Grows probes planner { planner₁ with salvaged := true }
            [ledger.planned member] := { hgrows with }
        obtain ⟨before, after, segments, rfl, hgrows', hstands, hend⟩ := ih h
        have hsame : ({ planner₁ with salvaged := true } : Planner).salvage = planner.salvage :=
          hgrows.salvage
        rw [hsame] at hstands
        refine ⟨entry :: before, after, ledger.planned member :: segments, rfl,
          hgrows₁.trans hgrows', .cons (.inr ⟨hsalvage, ledger, hjoined, member, hmember, rfl, hid,
            hlink⟩) hstands, hend⟩

/-- The open member has been admitted: its verified prefix is replayed when it has a
    record. -/
structure AdmitsOpen (probes : Probes) (planner planner' : Planner) (ledger : WalLedger)
    (member : Member) (probe : OpenProbe) : Prop where
  cached : probes.cached member.id = some (.opened probe)
  holder : probe.header.holder = ledger.holder
  openFacts : probe.header.openFacts = member.openFacts
  rule : ∀ state, planner.chain = .after state → ChainRule state.1 state.2 probe.header.openFacts
  replay : ∃ bytes, planner'.replay = planner.replay ++ if 0 < probe.recordCount then
    [ledger.planned { member with durableBytes := bytes }] else []
  /-- The sequences past the cut are below the floor. -/
  cutFloor : ∀ reason suffixMax, probe.ending = .damaged reason suffixMax →
    suffixMax ≤ planner'.cutFloor
  openCut : ∀ cut ∈ planner'.openCut, cut ∈ planner.openCut ∨ cut.id = member.id
  undamaged : planner.salvage = false → probe.ending.isDamaged = false

theorem admitPrefix_spec (planner : Planner) (ledger : WalLedger) (member : Member)
    (probe : OpenProbe) (retain : Bool) :
    (∃ bytes, (planner.admitPrefix ledger member probe retain).replay = planner.replay ++
      if 0 < probe.recordCount then [ledger.planned { member with durableBytes := bytes }]
      else []) ∧
    (planner.admitPrefix ledger member probe retain).cutFloor = planner.cutFloor ∧
    ∀ cut ∈ (planner.admitPrefix ledger member probe retain).openCut,
      cut ∈ planner.openCut ∨ cut.id = member.id := by
  obtain ⟨bytes, hbytes⟩ : ∃ bytes, (if ((if probe.validBytes ≠ probe.len ∨ probe.ending.isDamaged
      then { planner with openCut := some ⟨member.id, probe.validBytes, retain⟩ }
      else planner : Planner)).openCut.isSome then
        { member with durableBytes := member.durableBytes.map (min · probe.validBytes) }
      else member) = { member with durableBytes := bytes } := by
    split_ifs <;> exact ⟨_, rfl⟩
  rw [admitPrefix]
  simp only [hbytes]
  refine ⟨⟨bytes, ?_⟩, ?_, ?_⟩
  · split_ifs <;> simp
  · split_ifs <;> rfl
  · intro cut hcut
    split_ifs at hcut
    all_goals first | exact .inl hcut | (cases hcut; exact .inr rfl)

theorem openProbe_eq_ok {probe : OpenProbe} {chain : Chain}
    (h : planner.openProbe probes ledger member = .ok (probe, chain)) :
    probes.cached member.id = some (.opened probe) ∧ probe.header.holder = ledger.holder ∧
      probe.header.openFacts = member.openFacts ∧
      planner.chain.admitSegment probe.header member.id = .ok chain := by
  rw [openProbe] at h
  cases hprobe : probes.cached member.id with
  | none =>
    rw [hprobe] at h
    cases h
  | some found =>
    rw [hprobe] at h
    cases found with
    | «sealed» _ _ | damaged _ _ => cases h
    | opened found =>
      simp only [expectedHeader, except_bind_eq_ok, ensure_eq_ok, mapError_eq_ok] at h
      obtain ⟨_, ⟨_, hholder, hopen⟩, _, hchain, h⟩ := h
      cases h
      exact ⟨rfl, hholder, hopen, hchain⟩

/-- Admitting the open member: it is the hole, or it is admitted. -/
theorem admitOpen_spec (h : planner.admitOpen probes ledger member = .ok (planner', hole)) :
    (∃ reason, hole = some ⟨member.id, reason⟩ ∧ planner' = planner) ∨
      hole = none ∧ ∃ probe, AdmitsOpen probes planner planner' ledger member probe := by
  rw [admitOpen] at h
  cases hprobe : planner.openProbe probes ledger member with
  | error reason =>
    rw [hprobe] at h
    cases h
    exact .inl ⟨reason, rfl, rfl⟩
  | ok found =>
    obtain ⟨probe, chain⟩ := found
    rw [hprobe] at h
    obtain ⟨hcached, hholder, hopen, hadmits⟩ := openProbe_eq_ok hprobe
    have hrule : ∀ state, planner.chain = .after state →
        ChainRule state.1 state.2 probe.header.openFacts := by
      intro state hstate
      rw [hstate, Chain.admitSegment_eq_ok] at hadmits
      exact hadmits.2.2.1
    refine .inr ?_
    cases hending : probe.ending with
    | whole | torn =>
      simp only [hending] at h
      cases h
      exact ⟨rfl, probe, hcached, hholder, hopen, hrule, (admitPrefix_spec _ _ _ _ _).1,
        by simp [hending], (admitPrefix_spec _ _ _ _ _).2.2, fun _ => by rw [hending]; rfl⟩
    | damaged reason suffixMax =>
      simp only [hending, except_bind_eq_ok, ensure_eq_ok] at h
      obtain ⟨_, hsalvage, h⟩ := h
      cases h
      obtain ⟨hreplay, hfloor, hcut⟩ := admitPrefix_spec
        { planner with chain, salvaged := true, cutFloor := suffixMax } ledger member probe true
      refine ⟨rfl, probe, hcached, hholder, hopen, hrule, hreplay, ?_, hcut, fun hstrict => ?_⟩
      · rintro _ _ heq
        cases hending.symm.trans heq
        exact hfloor.ge
      · exact absurd (hsalvage.symm.trans hstrict) (by decide)

/-- Admitting the tail: the segments admitted are its members up to the hole. -/
theorem admitTail_spec {members : List Member}
    (h : admitTail probes ledger planner members = .ok (planner', hole)) :
    ∃ before after middle, members = before ++ after ∧ (∀ member ∈ before, member.sealed.isSome) ∧
      Grows probes planner middle (before.map ledger.planned) ∧
      (hole = none ∧ after = [] ∧ planner' = middle ∨
        (∃ reason member rest, hole = some ⟨member.id, reason⟩ ∧ after = member :: rest ∧
          planner' = middle) ∨
        ∃ member rest probe, hole = none ∧ after = member :: rest ∧ member.sealed = none ∧
          AdmitsOpen probes middle planner' ledger member probe) := by
  induction members generalizing planner with
  | nil =>
    cases h
    exact ⟨[], [], _, rfl, by simp, .refl, .inl ⟨rfl, rfl, rfl⟩⟩
  | cons member members ih =>
    rw [admitTail] at h
    cases hsealed : member.sealed with
    | none =>
      rw [hsealed] at h
      refine ⟨[], member :: members, planner, rfl, by simp, .refl, .inr ?_⟩
      rcases admitOpen_spec h with ⟨reason, rfl, rfl⟩ | ⟨rfl, probe, hopen⟩
      · exact .inl ⟨reason, member, members, rfl, rfl, rfl⟩
      · exact .inr ⟨member, members, probe, rfl, rfl, hsealed, hopen⟩
    | some facts =>
      rw [hsealed] at h
      simp only at h
      cases hadmits : planner.admitMember probes ledger member facts with
      | error reason =>
        rw [hadmits] at h
        cases h
        exact ⟨[], member :: members, _, rfl, by simp, .refl,
          .inr (.inl ⟨reason, member, members, rfl, rfl, rfl⟩)⟩
      | ok planner₁ =>
        rw [hadmits] at h
        have hgrows := grows_admitMember hsealed hadmits
        obtain ⟨before, after, middle, rfl, hall, hgrows', hend⟩ := ih h
        refine ⟨member :: before, after, middle, rfl, fun m hm => ?_, hgrows.trans hgrows', hend⟩
        rcases mem_cons.1 hm with rfl | hm
        exacts [by simp [hsealed], hall m hm]

/-! ## Admitting everything -/

theorem StandsFor.id_eq {salvage : Bool} {joined : Option WalLedger} {segment : PlannedSegment}
    (h : StandsFor salvage joined segment entry) : segment.id = entry.id := by
  rcases h with rfl | ⟨-, ledger, -, member, -, rfl, hid, -⟩
  exacts [rfl, hid]

/-- What has been admitted when the planner has come to the hole or to the end. -/
structure Admitted (salvage : Bool) (catalog : WalPublicationCatalog) (joined : Option WalLedger)
    (probes : Probes) (planner : Planner) (hole : Option Hole) : Prop where
  contiguous : Contiguous probes catalog.anchor planner.replay
  before_hole : ∀ h ∈ hole, ∀ segment ∈ planner.replay, segment.id < h.id
  entries : ∀ entry ∈ catalog.segments, (∀ h ∈ hole, entry.id < h.id) →
    ∃ segment ∈ planner.replay, StandsFor salvage joined segment entry
  tail : hole = none → ∀ ledger ∈ joined, ∀ member ∈ ledger.members,
    catalog.head.id < member.id → (member.sealed.isSome → ledger.planned member ∈ planner.replay) ∧
      (member.sealed = none → ∃ probe, probes.cached member.id = some (.opened probe) ∧
        (0 < probe.recordCount → ∃ bytes,
          ledger.planned { member with durableBytes := bytes } ∈ planner.replay))
  cutFloor : ∀ cut ∈ planner.openCut, ∀ probe reason suffixMax,
    probes.cached cut.id = some (.opened probe) → probe.ending = .damaged reason suffixMax →
      suffixMax ≤ planner.cutFloor

variable {salvage : Bool} {catalog : WalPublicationCatalog} {joined : Option WalLedger}

theorem run_new (h : Grows probes (.new salvage catalog.anchor) planner segments) :
    planner.replay = segments ∧ planner.openCut = none ∧ ∃ state, planner.chain = .after state ∧
      Run (PlannedStep probes) (catalog.anchor, none) segments state := by
  obtain ⟨state, hrun, hstate⟩ := h.run (catalog.anchor, none) rfl
  exact ⟨h.replay, h.openCut, state, hstate, hrun⟩

theorem mem_of_standsFor {entries : List CatalogEntry}
    (h : List.Forall₂ (StandsFor salvage joined) segments entries) :
    (∀ segment ∈ segments, ∃ entry ∈ entries, segment.id = entry.id) ∧
      ∀ entry ∈ entries, ∃ segment ∈ segments, StandsFor salvage joined segment entry := by
  refine ⟨fun segment hsegment => ?_, fun entry hentry => forall₂_exists h.flip hentry⟩
  obtain ⟨entry, hentry, hstands⟩ := forall₂_exists h hsegment
  exact ⟨entry, hentry, hstands.id_eq⟩

/-- The hole is in the catalog. -/
theorem admitted_of_entry (hvalid : catalog.validate = .ok ()) {before rest : List CatalogEntry}
    {reason : String} (hsegments : catalog.segments = before ++ entry :: rest)
    (hgrows : Grows probes (.new salvage catalog.anchor) planner segments)
    (hstands : List.Forall₂ (StandsFor salvage joined) segments before) :
    Admitted salvage catalog joined probes planner (some ⟨entry.id, reason⟩) := by
  obtain ⟨hreplay, hcut, state, -, hrun⟩ := run_new hgrows
  obtain ⟨hseg, hent⟩ := mem_of_standsFor hstands
  have hpairwise := (of_validate hvalid).1
  rw [hsegments, map_append, map_cons, pairwise_append, pairwise_cons]
    at hpairwise
  refine ⟨?_, ?_, ?_, nofun, by simp [hcut]⟩
  · rw [hreplay]
    exact ⟨segments, [], state, by simp, hrun, .inl rfl⟩
  · rintro _ ⟨⟩ segment hmem
    rw [hreplay] at hmem
    obtain ⟨e, he, heq⟩ := hseg segment hmem
    rw [heq]
    exact (hpairwise.2.2 e.link (mem_map_of_mem he) entry.link (by simp)).1
  · intro e he hlt
    rw [hreplay]
    refine hent e ?_
    rw [hsegments, mem_append, mem_cons] at he
    rcases he with he | rfl | he
    · exact he
    · exact absurd (hlt _ rfl) (lt_irrefl _)
    · have hgt := (hpairwise.2.1.1 e.link (mem_map_of_mem he)).1
      exact absurd (hlt _ rfl) (not_lt.2 (le_of_lt hgt))

/-- There is no hole in the catalog, and no ledger joins it. -/
theorem admitted_of_catalog (hgrows : Grows probes (.new salvage catalog.anchor) planner segments)
    (hstands : List.Forall₂ (StandsFor salvage none) segments catalog.segments) :
    Admitted salvage catalog none probes planner none := by
  obtain ⟨hreplay, hcut, state, -, hrun⟩ := run_new hgrows
  refine ⟨?_, nofun, ?_, nofun, by simp [hcut]⟩
  · rw [hreplay]
    exact ⟨segments, [], state, by simp, hrun, .inl rfl⟩
  · rw [hreplay]
    exact fun entry hentry _ => (mem_of_standsFor hstands).2 entry hentry

/-- There is no hole in the catalog, and the tail of the ledger follows. -/
theorem admitted_of_tail (hvalid : catalog.validate = .ok ()) (hchained : ledger.Chained)
    (hgrows : Grows probes (.new salvage catalog.anchor) planner segments)
    (hstands : List.Forall₂ (StandsFor salvage (some ledger)) segments catalog.segments)
    (h : planner.admitTail probes ledger (ledger.members.filter (catalog.head.id < ·.id)) =
      .ok (planner', hole)) : Admitted salvage catalog (some ledger) probes planner' hole := by
  obtain ⟨hreplay, hcut, state, hstate, hrun⟩ := run_new hgrows
  obtain ⟨hseg, hent⟩ := mem_of_standsFor hstands
  obtain ⟨before, after, middle, hmembers, hsealed, hgrows', hend⟩ := admitTail_spec h
  obtain ⟨state', hrun', hstate'⟩ := hgrows'.run state hstate
  have hmiddle : middle.replay = segments ++ before.map ledger.planned := by
    rw [hgrows'.replay, hreplay]
  have hmiddleCut : middle.openCut = none := hgrows'.openCut.trans hcut
  have hsorted : (before ++ after).Pairwise Member.Before :=
    hmembers ▸ hchained.sorted.1.filter _
  have hmem : ∀ m, m ∈ before ++ after ↔ m ∈ ledger.members ∧ catalog.head.id < m.id := by
    intro m
    rw [← hmembers, mem_filter, decide_eq_true_eq]
  have hentries : ∀ entry ∈ catalog.segments,
      ∃ segment ∈ middle.replay, StandsFor salvage (some ledger) segment entry := by
    intro entry hentry
    obtain ⟨segment, hsegment, hstand⟩ := hent entry hentry
    exact ⟨segment, by simp [hmiddle, hsegment], hstand⟩
  have hbefore : ∀ m ∈ before, ledger.planned m ∈ middle.replay ∧ m.sealed ≠ none := by
    intro m hm
    rw [hmiddle]
    exact ⟨mem_append_right _ (mem_map_of_mem hm), Option.isSome_iff_ne_none.1 (hsealed m hm)⟩
  rcases hend with ⟨rfl, rfl, rfl⟩ | ⟨reason, member, rest, rfl, rfl, rfl⟩ |
    ⟨member, rest, probe, rfl, rfl, hunsealed, hopen⟩
  · -- Every member is sealed and has been admitted.
    refine ⟨⟨_, [], state', by rw [hmiddle, append_nil], hrun.append hrun', .inl rfl⟩, nofun,
      fun entry hentry _ => hentries entry hentry, ?_, by simp [hmiddleCut]⟩
    rintro - _ ⟨⟩ m hm hlt
    have hm := (hmem m).2 ⟨hm, hlt⟩
    rw [append_nil] at hm
    exact ⟨fun _ => (hbefore m hm).1, fun hnone => absurd hnone (hbefore m hm).2⟩
  · -- The hole is in the tail.
    have hlt := ((hmem member).1 (by simp)).2
    refine ⟨⟨_, [], state', by rw [hmiddle, append_nil], hrun.append hrun', .inl rfl⟩, ?_,
      fun entry hentry _ => hentries entry hentry, nofun, by simp [hmiddleCut]⟩
    rintro _ ⟨⟩ segment hsegment
    rw [hmiddle, mem_append, mem_map] at hsegment
    rcases hsegment with hsegment | ⟨m, hm, rfl⟩
    · obtain ⟨entry, hentry, heq⟩ := hseg segment hsegment
      exact heq ▸ (le_head hvalid hentry).1.trans_lt hlt
    · exact ((pairwise_append.1 hsorted).2.2 m hm member (by simp)).1
  · -- The open member is the last one.
    obtain ⟨bytes, hreplay'⟩ := hopen.replay
    have hlast : ∀ m ∈ rest, False := by
      intro m hm
      have hle := hchained.le_open ((hmem member).1 (by simp)).1 hunsealed
        ((hmem m).1 (by simp [hm])).1
      have hlt := (pairwise_cons.1 (pairwise_append.1 hsorted).2.1).1 m hm
      exact absurd hlt.1 (not_lt.2 hle)
    refine ⟨⟨segments ++ before.map ledger.planned, _, state', by rw [hreplay', hmiddle],
      hrun.append hrun', ?_⟩, nofun, fun entry hentry _ => ?_, ?_, ?_⟩
    · split_ifs with hcount
      · refine .inr ⟨_, rfl, probe, _, _, hopen.cached, rfl, ?_, rfl, hopen.holder,
          hopen.openFacts, ?_, hopen.rule state' hstate'⟩
        · simp [WalLedger.planned, hunsealed]
        · exact congrArg OpenFacts.id hopen.openFacts
      · exact .inl rfl
    · obtain ⟨segment, hsegment, hstand⟩ := hentries entry hentry
      exact ⟨segment, by simp [hreplay', hsegment], hstand⟩
    · rintro - _ ⟨⟩ m hm hlt
      have hm := (hmem m).2 ⟨hm, hlt⟩
      rw [mem_append, mem_cons] at hm
      rcases hm with hm | rfl | hm
      · refine ⟨fun _ => ?_, fun hnone => absurd hnone (hbefore m hm).2⟩
        exact hreplay' ▸ mem_append_left _ (hbefore m hm).1
      · refine ⟨fun hsome => ?_, fun _ => ⟨probe, hopen.cached, fun hcount => ⟨bytes, ?_⟩⟩⟩
        · simp [hunsealed] at hsome
        · rw [hreplay', if_pos hcount]
          simp
      · exact (hlast m hm).elim
    · intro cut hcutmem probe' reason suffixMax hprobe' hending
      have hid : cut.id = member.id := by
        rcases hopen.openCut cut hcutmem with hnone | hid
        · rw [hmiddleCut] at hnone
          cases hnone
        · exact hid
      rw [hid, hopen.cached] at hprobe'
      cases hprobe'
      exact hopen.cutFloor reason suffixMax hending

/-- What the planner has admitted. -/
theorem admitted_of_admitAll (hvalid : catalog.validate = .ok ())
    (hchained : ∀ ledger ∈ joined, ledger.Chained)
    (h : (Planner.new salvage catalog.anchor).admitAll probes catalog joined = .ok (planner, hole)) :
    Admitted salvage catalog joined probes planner hole := by
  unfold admitAll at h
  obtain ⟨planner₁, hole₁, hcatalog⟩ : ∃ planner₁ hole₁,
      (Planner.new salvage catalog.anchor).admitCatalog probes joined catalog.segments =
        (planner₁, hole₁) := ⟨_, _, rfl⟩
  obtain ⟨before, after, segments, hsegments, hgrows, hstands, hend⟩ := admitCatalog_spec hcatalog
  rw [hcatalog] at h
  rcases hend with ⟨rfl, rfl⟩ | ⟨reason, entry, rest, rfl, rfl⟩
  · rw [append_nil] at hsegments
    subst hsegments
    cases joined with
    | none =>
      cases h
      exact admitted_of_catalog hgrows hstands
    | some ledger => exact admitted_of_tail hvalid (hchained ledger rfl) hgrows hstands h
  · cases h
    exact admitted_of_entry hvalid hsegments hgrows hstands

end Planner

/-! ## Plans -/

/-- Whether the members with an id are set aside. -/
def HistoryAction.SetsAside : HistoryAction → SegmentId → Prop
  | .genesis _ _, _ | .keep _, _ => False
  | .setAside start _, id => start ≤ id
  | .rebase _ _, _ => True

/-- A strict plan leaves nothing out. -/
structure RecoveryPlan.Complete (plan : RecoveryPlan) (catalog : WalPublicationCatalog)
    (ledger : Option WalLedger) (probes : Probes) : Prop where
  contiguous : Contiguous probes catalog.anchor plan.replay
  entries : ∀ entry ∈ catalog.segments, entry.planned ∈ plan.replay
  tail : lineage catalog ledger = .joined → ∀ l ∈ ledger, ∀ member ∈ l.members,
    catalog.head.id < member.id → (member.sealed.isSome → l.planned member ∈ plan.replay) ∧
      (member.sealed = none → ∃ probe, probes.cached member.id = some (.opened probe) ∧
        (0 < probe.recordCount → ∃ bytes,
          l.planned { member with durableBytes := bytes } ∈ plan.replay))

/-- A plan of salvage reports a floor for the sequences of what it leaves out. -/
structure RecoveryPlan.Floored (plan : RecoveryPlan) (catalog : WalPublicationCatalog)
    (ledger : Option WalLedger) (probes : Probes) : Prop where
  contiguous : Contiguous probes catalog.anchor plan.replay
  /-- An entry that is not set aside is replayed, from its object or from the same
      segment in the cache. -/
  entries : ∀ entry ∈ catalog.segments, entry ∉ plan.setAsideEntries → ∃ segment ∈ plan.replay,
    segment = entry.planned ∨ ∃ l ∈ ledger, ∃ member ∈ l.members, segment = l.planned member ∧
      member.id = entry.id ∧ member.sealed.map (·.link) = some entry.link
  catalogFloor : catalog.seqFloor ≤ plan.maxUnreplayedSequence
  entryFloor : ∀ entry ∈ plan.setAsideEntries, entry.maxSequence ≤ plan.maxUnreplayedSequence
  memberFloor : ∀ l ∈ ledger, ∀ member ∈ l.members, plan.history.SetsAside member.id →
    ∀ facts ∈ member.sealed, facts.link.lastSeq ≤ plan.maxUnreplayedSequence
  /-- The members up to the anchor of a catalog that the ledger joins have been retired. -/
  verifiedFloor : ∀ l ∈ ledger, ∀ member ∈ l.members, plan.history.SetsAside member.id →
    (lineage catalog ledger = .joined → catalog.anchor.id < member.id) →
      ∀ probe ∈ probes.cached member.id, probe.verified ≤ plan.maxUnreplayedSequence
  cutFloor : ∀ cut ∈ plan.openCut, ∀ probe reason suffixMax,
    probes.cached cut.id = some (.opened probe) → probe.ending = .damaged reason suffixMax →
      suffixMax ≤ plan.maxUnreplayedSequence

section Finish

variable {catalog : WalPublicationCatalog} {ledger : Option WalLedger} {lin : Lineage}
  {hole : Option Hole} {probes : Probes} {planner : Planner}

theorem le_setAsideMaximum {l : WalLedger} {start : SegmentId} (hmember : member ∈ l.members)
    (hid : start ≤ member.id) :
    (∀ facts ∈ member.sealed, facts.link.lastSeq ≤ setAsideMaximum l start probes) ∧
      ∀ probe ∈ probes.cached member.id, probe.verified ≤ setAsideMaximum l start probes := by
  have hle : max (member.sealed.elim 0 (·.link.lastSeq))
      ((probes.cached member.id).elim 0 (·.verified)) ≤ setAsideMaximum l start probes := by
    refine le_max?_getD_of_mem (mem_map.2 ⟨member, ?_, rfl⟩)
    simp [hmember, hid]
  refine ⟨fun facts hfacts => ?_, fun probe hprobe => ?_⟩
  · refine le_trans ?_ ((le_max_left _ _).trans hle)
    rw [show member.sealed = some facts from hfacts]
    exact le_rfl
  · refine le_trans ?_ ((le_max_right _ _).trans hle)
    rw [show probes.cached member.id = some probe from hprobe]
    exact le_rfl

theorem mem_setAsideEntries :
    entry ∈ (planner.finish catalog ledger lin hole probes).setAsideEntries ↔
      ∃ h ∈ hole, entry ∈ catalog.segments ∧ h.id ≤ entry.id := by
  change entry ∈ hole.elim [] (fun hole => catalog.segments.filter (hole.id ≤ ·.id)) ↔ _
  cases hole with
  | none | some h => simp

/-- The floors that the plan takes the greatest of. -/
theorem finish_floor (p : RecoveryPlan) (hp : planner.finish catalog ledger lin hole probes = p) :
    catalog.seqFloor ≤ p.maxUnreplayedSequence ∧
    (∀ entry ∈ p.setAsideEntries, entry.maxSequence ≤ p.maxUnreplayedSequence) ∧
    planner.cutFloor ≤ p.maxUnreplayedSequence ∧
    (catalog.headBefore p.retireCatalogFrom).lastSeq ≤ p.maxUnreplayedSequence ∧
    ∀ l ∈ ledger, ∀ start ∈ lin.localFrom hole,
      setAsideMaximum l start probes ≤ p.maxUnreplayedSequence := by
  have hmax : p.maxUnreplayedSequence = max (max (max (max (max catalog.seqFloor
      ((p.setAsideEntries.map (·.maxSequence)).max?.getD 0))
      (owedFloor ledger lin hole (localFloor ledger lin hole probes))) planner.cutFloor)
      (catalog.headBefore p.retireCatalogFrom).lastSeq) (localFloor ledger lin hole probes) := by
    subst hp
    rfl
  have hlocal : localFloor ledger lin hole probes ≤ p.maxUnreplayedSequence :=
    hmax ▸ le_max_right _ _
  simp only [hmax, le_max_iff, le_refl, true_or, or_true, true_and] at hlocal ⊢
  refine ⟨fun entry hentry => ?_, ?_⟩
  · have hle := @List.le_max?_getD_of_mem _ _ 0
      (mem_map_of_mem (f := fun entry : CatalogEntry => entry.maxSequence) hentry)
    exact .inl (.inl (.inl (.inl (.inr hle))))
  · rintro l ⟨⟩ start hstart
    have hfloor : localFloor (some l) lin hole probes = setAsideMaximum l start probes := by
      rw [localFloor, hstart]
      rfl
    exact .inr hfloor.ge

theorem head_cases (catalog : WalPublicationCatalog) :
    catalog.segments = [] ∧ catalog.head = catalog.anchor ∨
      ∃ last ∈ catalog.segments, catalog.head = last.link := by
  rcases eq_nil_or_concat catalog.segments with hnil | ⟨init, last, hsegments⟩
  · exact .inl ⟨hnil, by simp [WalPublicationCatalog.head, hnil]⟩
  · rw [concat_eq_append] at hsegments
    exact .inr ⟨last, by simp [hsegments], by simp [WalPublicationCatalog.head, hsegments]⟩

theorem anchor_le_head (hvalid : catalog.validate = .ok ()) :
    catalog.anchor.id ≤ catalog.head.id := by
  rcases head_cases catalog with ⟨-, hhead⟩ | ⟨last, hlast, hhead⟩
  · rw [hhead]
  · rw [hhead]
    exact ((of_validate hvalid).2.1 last hlast).1.le

/-- The head of the catalog is below the floor, whether it is kept or set aside. -/
theorem head_le_floor (hvalid : catalog.validate = .ok ()) {p : RecoveryPlan}
    (hp : planner.finish catalog ledger lin hole probes = p) :
    catalog.head.lastSeq ≤ p.maxUnreplayedSequence := by
  obtain ⟨-, hentries, -, hkept, -⟩ := finish_floor p hp
  by_cases hnone : p.setAsideEntries = []
  · have hretire : p.retireCatalogFrom = none := by
      subst hp
      exact congrArg (·.head?.map (·.id)) hnone
    rw [hretire] at hkept
    have hhead : catalog.headBefore none = catalog.head := by
      have hall : catalog.segments.takeWhile (fun entry =>
          (none : Option SegmentId).all (entry.id < ·)) = catalog.segments :=
        takeWhile_eq_self_iff.2 fun _ _ => rfl
      rw [headBefore, hall, WalPublicationCatalog.head]
    rwa [hhead] at hkept
  · obtain ⟨entry, hentry⟩ := exists_mem_of_ne_nil _ hnone
    subst hp
    obtain ⟨h, hh, hmem, hle⟩ := mem_setAsideEntries.1 hentry
    rcases head_cases catalog with ⟨hnil, -⟩ | ⟨last, hlast, hhead⟩
    · simp [hnil] at hmem
    · rw [hhead]
      refine hentries last (mem_setAsideEntries.2 ⟨h, hh, hlast, hle.trans ?_⟩)
      have := (le_head hvalid hmem).1
      rwa [hhead] at this

/-- The members that a plan sets aside: those from the hole on, all of them when the
    ledger does not join the catalog, and those that the catalog has retired. -/
theorem of_setsAside {l : WalLedger} (hmember : member ∈ l.members)
    (h : (planner.finish catalog (some l) lin hole probes).history.SetsAside member.id) :
    (∃ start ∈ lin.localFrom hole, start ≤ member.id) ∨
      lin = .joined ∧ member.id ≤ catalog.anchor.id := by
  cases lin with
  | fresh | behind _ | diverged => exact .inl ⟨0, rfl, Nat.zero_le _⟩
  | joined =>
    change (historyAction catalog (some l) .joined hole _).SetsAside member.id at h
    cases hole with
    | none => exact h.elim
    | some hole =>
      rcases le_or_gt hole.id member.id with hle | hlt
      · exact .inl ⟨hole.id, rfl, hle⟩
      · by_cases hkept : keptBefore l catalog.anchor.id hole.id
        · simp only [historyAction, hkept, if_true] at h
          exact absurd h (not_le.2 hlt)
        · refine .inr ⟨rfl, not_lt.1 fun hgt => hkept (any_eq_true.2 ⟨member.id, ?_, ?_⟩)⟩
          exacts [mem_map_of_mem hmember, decide_eq_true ⟨hgt, hlt⟩]

end Finish

theorem holdsLink_of_joined {catalog : WalPublicationCatalog} {l : WalLedger}
    (h : lineage catalog (some l) = .joined) : l.holdsLink catalog.head := by
  by_contra hnot
  rw [Bool.not_eq_true] at hnot
  simp only [lineage, hnot] at h
  split_ifs at h <;> simp_all

/-- Every plan replays contiguous segments. A strict plan leaves out no entry of the
    catalog and no member of the tail of a ledger that joins it, but an open segment
    without records. A plan of salvage reports a sequence that is not below the floor of
    the catalog, the last sequence of whatever it sets aside, and the sequences that have
    been verified there. -/
theorem plan_spec (policy : RecoveryPolicy) (catalog : WalPublicationCatalog)
    (ledger : Option WalLedger) (probes : Probes) (hvalid : catalog.validate = .ok ())
    (hchained : ∀ l ∈ ledger, l.Chained) (p : RecoveryPlan)
    (h : plan policy catalog ledger probes = .ok p) :
    (policy = .strict → p.Complete catalog ledger probes) ∧
      (policy = .salvage → p.Floored catalog ledger probes) := by
  simp only [plan, except_bind_eq_ok, ensure_eq_ok] at h
  obtain ⟨⟨planner, hole⟩, hadmits, _, -, _, hhole, h⟩ := h
  cases h
  have hjoined : ∀ l ∈ ledger.filter (fun _ => decide (lineage catalog ledger = .joined)),
      l ∈ ledger ∧ lineage catalog ledger = .joined := by
    intro l hl
    obtain ⟨hl, hlin⟩ := Option.filter_eq_some_iff.1 hl
    exact ⟨hl, of_decide_eq_true hlin⟩
  have hadmitted := Planner.admitted_of_admitAll hvalid (fun l hl => hchained l (hjoined l hl).1)
    hadmits
  generalize hfinal : ({ planner with salvaged := _ } : Planner) = final
  have hreplay : (final.finish catalog ledger (lineage catalog ledger) hole probes).replay =
      planner.replay := by
    subst hfinal
    cases hole with
    | none => rfl
    | some h =>
      refine filter_eq_self.2 fun segment hsegment => decide_eq_true ?_
      exact hadmitted.before_hole h rfl segment hsegment
  constructor
  · rintro rfl
    -- Strict recovery refuses a hole.
    have hnone : hole = none := by
      cases hole with
      | none => rfl
      | some h => simp [ensure] at hhole
    subst hnone
    refine ⟨hreplay ▸ hadmitted.contiguous, fun entry hentry => ?_, fun hlin l hl => ?_⟩
    · obtain ⟨segment, hsegment, hstands⟩ := hadmitted.entries entry hentry (by simp)
      rcases hstands with rfl | ⟨hsalvage, -⟩
      · exact hreplay ▸ hsegment
      · simp at hsalvage
    · rw [hreplay]
      exact hadmitted.tail rfl l (Option.filter_eq_some_iff.2 ⟨hl, decide_eq_true hlin⟩)
  · rintro rfl
    obtain ⟨hfloor, hentryFloor, hcut, -, hlocal⟩ :=
      finish_floor (final.finish catalog ledger (lineage catalog ledger) hole probes) rfl
    refine ⟨hreplay ▸ hadmitted.contiguous, fun entry hentry hkept => ?_, hfloor, hentryFloor,
      fun l hl member hmember haside facts hfacts => ?_,
      fun l hl member hmember haside hanchor probe hprobe => ?_, ?_⟩
    · obtain ⟨segment, hsegment, hstands⟩ := hadmitted.entries entry hentry fun h hh =>
        not_le.1 fun hle => hkept (mem_setAsideEntries.2 ⟨h, hh, hentry, hle⟩)
      refine ⟨segment, hreplay ▸ hsegment, hstands.imp_right ?_⟩
      rintro ⟨-, l, hl, hmember⟩
      exact ⟨l, (hjoined l hl).1, hmember⟩
    · cases hl
      rcases of_setsAside hmember haside with ⟨start, hstart, hid⟩ | ⟨hlin, hid⟩
      · exact ((le_setAsideMaximum hmember hid).1 facts hfacts).trans (hlocal l rfl start hstart)
      · exact ((hchained l rfl).lastSeq_le (holdsLink_of_joined hlin) hmember
          (hid.trans (anchor_le_head hvalid)) hfacts).trans (head_le_floor hvalid rfl)
    · cases hl
      rcases of_setsAside hmember haside with ⟨start, hstart, hid⟩ | ⟨hlin, hid⟩
      · exact ((le_setAsideMaximum hmember hid).2 probe hprobe).trans (hlocal l rfl start hstart)
      · exact absurd (hanchor hlin) (not_lt.2 hid)
    · intro cut hcutmem probe reason suffixMax hprobe hending
      subst hfinal
      exact (hadmitted.cutFloor cut hcutmem probe reason suffixMax hprobe hending).trans hcut

/-! ## An open segment without records, and an object with later sequences -/

/-- The catalog that a new database starts with. -/
def emptyCatalog : WalPublicationCatalog := ⟨catalogFormatVersion, 1, .genesis, 1, 0, 0, []⟩

/-- A segment with one record, at sequence 5. -/
def firstEntry : CatalogEntry where
  epoch := 1
  prev := .genesis
  facts := ⟨⟨1, 5, .replicate 16 (byte 2)⟩, 1, 200, [(0, 5)]⟩
  sizeBytes := 300
  crc32c := 0

/-- The probe of the open member of the first ledger, with some records. -/
def firstProbes (recordCount : ℕ) : Probes where
  remote _ := none
  cached id := if id = 1 then
      some (.opened ⟨⟨1, 1, .replicate 16 (byte 1), 1, .genesis⟩, 128, 128, recordCount, 0, .whole⟩)
    else none

/-- A strict plan leaves out an open segment without records, and the floor of a plan of
    salvage does not count what its probe has verified in an object that is set aside. -/
theorem plan_omits :
    (emptyCatalog.validate = .ok () ∧ lineage emptyCatalog (some firstLedger) = .joined ∧
      ∃ p, plan .strict emptyCatalog (some firstLedger) (firstProbes 0) = .ok p ∧
        ∀ segment ∈ p.replay, segment.id ≠ firstLedger.openSegment) ∧
    ∃ catalog : WalPublicationCatalog, catalog.validate = .ok () ∧
      ∃ p, plan .salvage catalog none ⟨fun _ => some (.damaged "damaged" 1000), fun _ => none⟩ =
        .ok p ∧ p.setAsideEntries = [firstEntry] ∧ p.maxUnreplayedSequence < 1000 := by
  refine ⟨⟨rfl, rfl, _, rfl, fun segment hsegment => ?_⟩,
    ⟨catalogFormatVersion, 1, .genesis, 2, 0, 0, [firstEntry]⟩, rfl, _, rfl, rfl, by decide⟩
  change segment ∈ ([] : List PlannedSegment) at hsegment
  cases hsegment

theorem plan_spec_first : ∃ p,
    plan .strict emptyCatalog (some firstLedger) (firstProbes 1) = .ok p ∧
      p.Complete emptyCatalog (some firstLedger) (firstProbes 1) := by
  refine ⟨_, rfl, (plan_spec .strict emptyCatalog (some firstLedger) (firstProbes 1) rfl ?_ _
    rfl).1 rfl⟩
  rintro l ⟨⟩
  exact @WalLedger.chained_genesis _ (.replicate 16 (byte 1)) .genesis firstFacts rfl

end Midge
