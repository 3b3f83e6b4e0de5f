import Midge.Wal.CatalogSpec
import Midge.Wal.PlannerSpec

/-!
# Salvage converges

A plan of salvage is carried out in two steps: the catalog drops the entries that are set
aside, and the ledger continues as the plan says (`WalLedger.carryOut`). The next plan is
then an ordinary one: the ledger joins the catalog, nothing is missing, and the segments
to be replayed are those that salvage has kept (`salvage_converges`). The new open segment
has an id that no segment has had, whether it has been kept or set aside.

The one thing that salvage does not mend is a published object that it has replaced by
the copy in the cache (`fallback_does_not_converge`).
-/

namespace Midge

open List Option WalPublicationCatalog WalLedger Planner

/-! ## Carrying out a plan -/

/-- The facts of a segment that is created after `prev`. -/
def openingFacts (id : SegmentId) (epoch : ℕ) (prev : ChainLink) : OpenFacts :=
  ⟨id, epoch, satAdd prev.lastSeq 1, prev⟩

/-- Why a plan cannot be carried out. -/
inductive HistoryError
  | refused (error : LedgerError)
  /-- The action does not fit the history of the cache. -/
  | unfit
  deriving DecidableEq

namespace WalLedger

/-- The link of the last member below `start`. -/
def keptLink (ledger : WalLedger) (start : SegmentId) : ChainLink :=
  ((ledger.members.filter (·.id < start)).getLast?.bind (·.sealed)).elim ledger.anchor (·.link)

/-- Commit an edit. -/
def commit (ledger : WalLedger) (edit : LedgerEdit) : Except HistoryError WalLedger :=
  match apply edit ledger with
  | .ok _ ledger' => .ok ledger'
  | .error error _ => .error (.refused error)

/-- Continue the history of a cache as the plan says, under the epoch of the writer. -/
def carryOut (holder : HolderId) (epoch : ℕ) :
    Option WalLedger → HistoryAction → Except HistoryError WalLedger
  | none, .genesis anchor openAtLeast =>
    (genesis holder anchor (openingFacts openAtLeast epoch anchor)).mapError .refused
  | some ledger, .keep none => .ok ledger
  | some ledger, .keep (some below) => ledger.commit (.advanceLogStart below)
  | some ledger, .setAside start openAtLeast =>
    let start := max start ledger.logStart
    ledger.commit (.setAside start none
      (openingFacts (max ledger.nextSegmentId openAtLeast) epoch (ledger.keptLink start)))
  | some ledger, .rebase anchor openAtLeast =>
    ledger.commit (.rebase anchor
      (openingFacts (max ledger.nextSegmentId openAtLeast) epoch anchor))
  | none, .keep _ | none, .setAside _ _ | none, .rebase _ _ | some _, .genesis _ _ => .error .unfit

theorem commit_eq_ok {ledger ledger' : WalLedger} {edit : LedgerEdit}
    (h : ledger.commit edit = .ok ledger') : Accepts ledger edit ledger' := by
  rw [commit] at h
  cases happly : apply edit ledger with
  | error error _ =>
    rw [happly] at h
    cases h
  | ok u ledger'' =>
    rw [happly] at h
    cases h
    exact of_apply happly

end WalLedger

/-- The header of a segment that a history creates. -/
def OpenFacts.header (facts : OpenFacts) (holder : HolderId) : SegmentHeader :=
  ⟨facts.id, facts.epoch, holder, facts.firstSeq, facts.prev⟩

/-- What is read of a segment that has just been created. -/
def OpenFacts.created (facts : OpenFacts) (holder : HolderId) : OpenProbe :=
  ⟨facts.header holder, segmentHeaderLen, segmentHeaderLen, 0, 0, .whole⟩

/-- What is read when recovery plans again: the segments that have been kept are as they
    were, and the open one has only its header. -/
structure ReadAgain (probes probes' : Probes) (catalog : WalPublicationCatalog)
    (ledger : WalLedger) : Prop where
  remote : ∀ entry ∈ catalog.segments, probes'.remote entry.id = probes.remote entry.id
  cached : ∀ member ∈ ledger.members, member.sealed.isSome →
    probes'.cached member.id = probes.cached member.id
  opened : probes'.cached ledger.openSegment =
    some (.opened (ledger.openMember.openFacts.created ledger.holder))

/-- Segments with the same link are the same segment: they name the same link before. -/
def SameSegments (catalog : WalPublicationCatalog) (ledger : WalLedger) : Prop :=
  ∀ member ∈ ledger.members, ∀ sealed ∈ member.sealed, ∀ entry ∈ catalog.segments,
    sealed.link = entry.link → member.openFacts.prev = entry.prev

/-! ## Admitting segments that have been planned -/

namespace Planner

variable {probes : Probes} {planner : Planner} {state state' : ChainLink × Option ℕ}

/-- The planner after more segments, in the part that decides what comes next. -/
structure Reaches (planner planner' : Planner) (segments : List PlannedSegment)
    (state : ChainLink × Option ℕ) : Prop where
  replay : planner'.replay = planner.replay ++ segments
  chain : planner'.chain = .after state
  salvage : planner'.salvage = planner.salvage
  salvaged : planner'.salvaged = planner.salvaged
  openCut : planner'.openCut = planner.openCut

theorem admitSealed_of_rule {header : SegmentHeader} {id : SegmentId} {link : ChainLink}
    (hid : header.id = id) (hrule : ChainRule state.1 state.2 header.openFacts) :
    admitSealed (.after state) header id link = .ok (.after (link, some header.epoch)) := by
  have hadmits : (Chain.after state).admitSegment header id =
      .ok { Chain.after state with epoch := some header.epoch, isOpen := true } :=
    Chain.admitSegment_eq_ok.2 ⟨rfl, hid, hrule, rfl⟩
  rw [admitSealed, hadmits]
  rfl

/-- Published objects that have been planned are admitted. -/
theorem admitCatalog_of_run {joined : Option WalLedger} {entries : List CatalogEntry}
    (hchain : planner.chain = .after state)
    (h : Run (PlannedStep probes) state (entries.map CatalogEntry.planned) state') :
    ∃ planner', admitCatalog probes joined planner entries = (planner', none) ∧
      planner.Reaches planner' (entries.map CatalogEntry.planned) state' := by
  induction entries generalizing planner state with
  | nil =>
    cases h
    exact ⟨planner, rfl, (append_nil _).symm, hchain, rfl, rfl, rfl⟩
  | cons entry entries ih =>
    cases h with
    | cons hstep hrest =>
      obtain ⟨header, link, hprobe, -, ⟨hid, hepoch, hprev, rfl⟩, hid', hrule, rfl⟩ := hstep
      have hremote : ∃ planner₁, planner.admitRemote probes entry = .ok planner₁ ∧
          planner.Reaches planner₁ [entry.planned] (entry.link, some header.epoch) := by
        have hpublished : published entry (probes.remote entry.id) = .ok header := by
          have hread : probes.remote entry.id = some (.sealed header entry.link) := hprobe
          rw [hread]
          simp only [published, except_bind_eq_ok, ensure_eq_ok]
          exact ⟨(), ⟨hid, hepoch, hprev, trivial⟩, rfl⟩
        rw [admitRemote, hpublished, hchain]
        simp only [bind, Except.bind]
        rw [admitSealed_of_rule hid hrule]
        exact ⟨_, rfl, rfl, rfl, rfl, rfl, rfl⟩
      obtain ⟨planner₁, hadmits, hreaches₁⟩ := hremote
      obtain ⟨planner', hadmits', hreaches'⟩ := ih hreaches₁.chain hrest
      refine ⟨planner', ?_, ?_, hreaches'.chain, hreaches'.salvage.trans hreaches₁.salvage,
        hreaches'.salvaged.trans hreaches₁.salvaged, hreaches'.openCut.trans hreaches₁.openCut⟩
      · rw [admitCatalog, hadmits]
        exact hadmits'
      · rw [hreaches'.replay, hreaches₁.replay, append_assoc]
        rfl

/-- Sealed members that have been planned are admitted, and then the open one, which has
    no record. -/
theorem admitTail_of_run {ledger : WalLedger} {members : List Member} {last : Member}
    (hsealed : ∀ member ∈ members, member.sealed.isSome) (hunsealed : last.sealed = none)
    (hchain : planner.chain = .after state)
    (h : Run (PlannedStep probes) state (members.map ledger.planned) state')
    (hrule : ChainRule state'.1 state'.2 last.openFacts)
    (hopened : probes.cached last.id = some (.opened (last.openFacts.created ledger.holder))) :
    ∃ planner', admitTail probes ledger planner (members ++ [last]) = .ok (planner', none) ∧
      planner'.replay = planner.replay ++ members.map ledger.planned ∧
      planner'.salvaged = planner.salvaged ∧ planner'.openCut = planner.openCut := by
  induction members generalizing planner state with
  | nil =>
    cases h
    obtain ⟨chain, hadmits⟩ : ∃ chain, (Chain.after state').admitSegment
        (last.openFacts.header ledger.holder) last.id = .ok chain :=
      ⟨_, Chain.admitSegment_eq_ok.2 ⟨rfl, rfl, hrule, rfl⟩⟩
    have hprobe : planner.openProbe probes ledger last =
        .ok (last.openFacts.created ledger.holder, chain) := by
      have hexpected : expectedHeader ledger last (last.openFacts.header ledger.holder) = .ok () := by
        simp only [expectedHeader, except_bind_eq_ok, ensure_eq_ok]
        exact ⟨(), rfl, rfl⟩
      rw [openProbe, hopened, hchain]
      simp only [OpenFacts.created, hexpected, hadmits]
      rfl
    refine ⟨{ planner with chain }, ?_, (append_nil _).symm, rfl, rfl⟩
    rw [nil_append, admitTail, hunsealed]
    simp only
    rw [admitOpen, hprobe]
    rfl
  | cons member members ih =>
    obtain ⟨hmember, hmembers⟩ := forall_mem_cons.1 hsealed
    obtain ⟨facts, hfacts⟩ := isSome_iff_exists.1 hmember
    cases h with
    | cons hstep hrest =>
      obtain ⟨header, link, hprobe, -, ⟨hholder, hopen, hlink⟩, hid, hrule', rfl⟩ := hstep
      rw [hfacts, map_some, some.injEq] at hlink
      subst hlink
      have hid : header.id = member.id := hid
      have hholder : header.holder = ledger.holder := hholder
      have hadmits : ∃ planner₁, planner.admitMember probes ledger member facts = .ok planner₁ ∧
          planner.Reaches planner₁ [ledger.planned member] (facts.link, some header.epoch) := by
        have hread : probes.cached member.id = some (.sealed header facts.link) := hprobe
        have hsealed' : sealedMember ledger member (probes.cached member.id) = .ok header := by
          rw [hread]
          simp only [sealedMember, expectedHeader, except_bind_eq_ok, ensure_eq_ok]
          exact ⟨(), ⟨(), hholder, hopen⟩, (), by rw [hfacts]; rfl, rfl⟩
        rw [admitMember, hsealed', hchain]
        simp only [bind, Except.bind]
        rw [admitSealed_of_rule hid hrule']
        exact ⟨_, rfl, rfl, rfl, rfl, rfl, rfl⟩
      obtain ⟨planner₁, hadmits₁, hreaches₁⟩ := hadmits
      obtain ⟨planner', hadmits', hreplay', hsalvaged', hcut'⟩ := ih hmembers hreaches₁.chain hrest
      refine ⟨planner', ?_, ?_, hsalvaged'.trans hreaches₁.salvaged,
        hcut'.trans hreaches₁.openCut⟩
      · rw [cons_append, admitTail, hfacts]
        simp only
        rw [hadmits₁]
        exact hadmits'
      · rw [hreplay', hreaches₁.replay, append_assoc]
        rfl

end Planner

/-! ## The chain along the segments that are kept -/

section Chain

variable {probes : Probes} {state state' : ChainLink × Option ℕ}

/-- The chain after published objects stands at the link of the last one. -/
theorem run_entries {entries : List CatalogEntry}
    (h : Run (PlannedStep probes) state (entries.map CatalogEntry.planned) state') :
    state'.1 = WalPublicationCatalog.linkAfter state.1 entries ∧
      ∀ e ∈ state'.2, e ∈ state.2 ∨ ∃ entry ∈ entries, entry.epoch = e := by
  induction entries generalizing state with
  | nil =>
    cases h
    exact ⟨rfl, fun _ => .inl⟩
  | cons entry entries ih =>
    cases h with
    | cons hstep hrest =>
      obtain ⟨header, link, -, -, ⟨-, hepoch, -, rfl⟩, -, -, rfl⟩ := hstep
      obtain ⟨hlink, hepochs⟩ := ih hrest
      rw [linkAfter_cons]
      refine ⟨hlink, fun e he => ?_⟩
      rcases hepochs e he with he | ⟨entry', hentry', rfl⟩
      · cases he
        exact .inr ⟨entry, .head _, hepoch.symm⟩
      · exact .inr ⟨entry', .tail _ hentry', rfl⟩

/-- The chain after sealed members stands at the link of the last one. -/
theorem run_members {ledger : WalLedger} {members : List Member}
    (hsealed : ∀ member ∈ members, member.sealed.isSome)
    (h : Run (PlannedStep probes) state (members.map ledger.planned) state') :
    state'.1 = (members.getLast?.bind (·.sealed)).elim state.1 (·.link) ∧
      ∀ e ∈ state'.2, e ∈ state.2 ∨ ∃ member ∈ members, member.openFacts.epoch = e := by
  induction members generalizing state with
  | nil =>
    cases h
    exact ⟨rfl, fun _ => .inl⟩
  | cons member members ih =>
    obtain ⟨-, hmembers⟩ := forall_mem_cons.1 hsealed
    cases h with
    | cons hstep hrest =>
      obtain ⟨header, link, -, -, ⟨-, hopen, hlink⟩, -, -, rfl⟩ := hstep
      obtain ⟨hlast, hepochs⟩ := ih hmembers hrest
      obtain ⟨facts, hfacts, rfl⟩ := map_eq_some_iff.1 hlink
      refine ⟨?_, fun e he => ?_⟩
      · rw [hlast, getLast?_cons]
        cases hend : members.getLast? with
        | none => simp [hfacts]
        | some last =>
          obtain ⟨facts', hfacts'⟩ :=
            isSome_iff_exists.1 (hmembers last (mem_of_getLast? hend))
          simp [hfacts']
      · rcases hepochs e he with he | ⟨member', hmember', rfl⟩
        · cases he
          exact .inr ⟨member, .head _, congrArg OpenFacts.epoch hopen.symm⟩
        · exact .inr ⟨member', .tail _ hmember', rfl⟩

end Chain

/-! ## The strict plan -/

/-- The chain rule for other epochs before. -/
theorem ChainRule.of_epochs {prev : ChainLink} {epoch epoch' : Option ℕ} {facts : OpenFacts}
    (h : ChainRule prev epoch facts) (hle : ∀ e ∈ epoch', e ≤ facts.epoch) :
    ChainRule prev epoch' facts :=
  ⟨h.prev_eq, h.past, hle, h.id⟩

/-- A plan that has nothing to salvage. -/
structure RecoveryPlan.Clean (plan : RecoveryPlan) : Prop where
  entries : plan.setAsideEntries = []
  history : ∃ below, plan.history = .keep below
  openCut : plan.openCut = none
  salvaged : plan.openedInSalvageMode = false

theorem strict_plan {catalog : WalPublicationCatalog} {ledger : WalLedger} {probes : Probes}
    {members : List Member} {last : Member} {state state' : ChainLink × Option ℕ}
    (hlineage : lineage catalog (some ledger) = .joined)
    (hmembers : ledger.members.filter (catalog.head.id < ·.id) = members ++ [last])
    (hsealed : ∀ member ∈ members, member.sealed.isSome) (hunsealed : last.sealed = none)
    (hentries : Run (PlannedStep probes) (catalog.anchor, none)
      (catalog.segments.map CatalogEntry.planned) state)
    (htail : Run (PlannedStep probes) state (members.map ledger.planned) state')
    (hrule : ChainRule state'.1 state'.2 last.openFacts)
    (hopened : probes.cached last.id = some (.opened (last.openFacts.created ledger.holder))) :
    ∃ p, plan .strict catalog (some ledger) probes = .ok p ∧ p.Clean ∧
      p.replay = catalog.segments.map CatalogEntry.planned ++ members.map ledger.planned := by
  obtain ⟨planner₁, hcatalog, hreaches⟩ :=
    @Planner.admitCatalog_of_run probes (new false catalog.anchor) _ _ (some ledger) _ rfl
      hentries
  obtain ⟨planner₂, hadmits, hreplay, hsalvaged, hcut⟩ :=
    admitTail_of_run hsealed hunsealed hreaches.chain htail hrule hopened
  have hall : (new false catalog.anchor).admitAll probes catalog (some ledger) =
      .ok (planner₂, none) := by
    unfold admitAll
    rw [hcatalog]
    simp only
    rw [hmembers]
    exact hadmits
  have hfalse : planner₂.salvaged = false := hsalvaged.trans hreaches.salvaged
  have hplan : plan .strict catalog (some ledger) probes =
      .ok (planner₂.finish catalog (some ledger) .joined none probes) := by
    rw [plan, hlineage]
    simp only [filter_some, decide_true, if_true, reduceCtorEq, decide_false]
    rw [hall]
    simp only [ensure, false_implies, if_true, bind, Except.bind, elim_none, pure,
      Except.pure, isSome_none, Bool.or_false]
  refine ⟨_, hplan, ⟨rfl, ⟨_, rfl⟩, hcut.trans hreaches.openCut, hfalse⟩, ?_⟩
  exact hreplay.trans (congrArg (· ++ _) hreaches.replay)

/-! ## The entries that are kept -/

section Kept

variable {catalog : WalPublicationCatalog} {ledger : Option WalLedger} {lin : Lineage}
  {probes : Probes} {planner : Planner}

/-- The entries before the first one that is set aside. -/
def WalPublicationCatalog.keptEntries (catalog : WalPublicationCatalog)
    (retireFrom : Option SegmentId) : List CatalogEntry :=
  catalog.segments.takeWhile fun entry => retireFrom.all (entry.id < ·)

theorem headBefore_eq (retireFrom : Option SegmentId) : catalog.headBefore retireFrom =
    WalPublicationCatalog.linkAfter catalog.anchor (catalog.keptEntries retireFrom) := rfl

theorem keptEntries_none : catalog.keptEntries none = catalog.segments :=
  takeWhile_eq_self_iff.2 fun _ _ => rfl

/-- What the catalog is when the entries have been set aside. -/
theorem of_setAsideSuffix {catalog' : WalPublicationCatalog} {epoch floor : ℕ}
    {start : Option SegmentId} {expected : List CatalogEntry} {changed : Bool}
    (h : WalPublicationCatalog.setAsideSuffix epoch start expected floor catalog =
      .ok changed catalog') :
    epoch = catalog.fencingEpoch ∧ catalog' = { catalog with
      segments := catalog.keptEntries start
      seqFloor := max catalog.seqFloor floor } := by
  simp only [setAsideSuffix, Update.get_bind_eq_ok, Update.check_bind_eq_ok,
    requireEpoch, ensure_eq_ok, Update.modify_bind_eq_ok] at h
  obtain ⟨_, hepoch, _, -, h⟩ := h
  cases h
  refine ⟨hepoch, ?_⟩
  cases start with
  | none => simp [keptEntries_none]
  | some start =>
    have hkept : catalog.segments.take (partitionPoint (·.id < start) catalog.segments) =
        catalog.keptEntries (some start) := take_partitionPoint _ _
    simp only [elim_some, hkept]

/-- The hole is in the catalog. -/
theorem retireCatalogFrom_of_entry (hvalid : catalog.validate = .ok ())
    {before rest : List CatalogEntry} {entry : CatalogEntry} {reason : String}
    (hsegments : catalog.segments = before ++ entry :: rest) :
    (planner.finish catalog ledger lin (some ⟨entry.id, reason⟩) probes).retireCatalogFrom =
        some entry.id ∧ catalog.keptEntries (some entry.id) = before := by
  have hpairwise := (of_validate hvalid).1
  rw [hsegments, map_append, map_cons, pairwise_append] at hpairwise
  have hbefore : ∀ e ∈ before, e.id < entry.id := fun e he =>
    (hpairwise.2.2 e.link (mem_map_of_mem he) entry.link (by simp)).1
  constructor
  · change ((catalog.segments.filter (entry.id ≤ ·.id)).head?.map (·.id)) = _
    have hnone : before.filter (entry.id ≤ ·.id) = [] :=
      filter_eq_nil_iff.2 fun e he => by simpa using hbefore e he
    rw [hsegments, filter_append, hnone, filter_cons_of_pos (by simp)]
    rfl
  · rw [keptEntries, hsegments, takeWhile_append_of_pos]
    · simp
    · exact fun e he => decide_eq_true (hbefore e he)

/-- The hole is after the catalog, or there is none. -/
theorem retireCatalogFrom_of_after {hole : Option Hole}
    (h : ∀ hole' ∈ hole, ∀ entry ∈ catalog.segments, entry.id < hole'.id) :
    (planner.finish catalog ledger lin hole probes).retireCatalogFrom = none := by
  change ((hole.elim [] fun hole => catalog.segments.filter (hole.id ≤ ·.id)).head?.map _) = none
  cases hole with
  | none => rfl
  | some hole =>
    have hnone : catalog.segments.filter (hole.id ≤ ·.id) = [] :=
      filter_eq_nil_iff.2 fun e he => by simpa using h hole rfl e he
    rw [elim_some, hnone]
    rfl

/-- Without copies from the cache, the segments are the published objects. -/
theorem eq_map_planned {salvage : Bool} {joined : Option WalLedger}
    {segments : List PlannedSegment} {entries : List CatalogEntry}
    (h : List.Forall₂ (Planner.StandsFor salvage joined) segments entries)
    (hremote : ∀ segment ∈ segments, segment.source = .remote) :
    segments = entries.map CatalogEntry.planned := by
  induction h with
  | nil => rfl
  | cons hstands _ ih =>
    obtain ⟨hfirst, hrest⟩ := forall_mem_cons.1 hremote
    rw [map_cons, ← ih hrest]
    rcases hstands with rfl | ⟨-, l, -, member, -, rfl, -⟩
    · rfl
    · cases hfirst

end Kept

/-! ## The ledger that continues -/

section Continue

variable {catalog : WalPublicationCatalog} {ledger : WalLedger} {probes probes' : Probes}

theorem lineage_eq_joined : lineage catalog (some ledger) = .joined ↔
    ledger.holdsLink catalog.head ∧ catalog.nextSegmentId ≤
      ((ledger.members.map (·.id)).find? (catalog.head.id < ·)).getD ledger.openSegment := by
  simp only [lineage]
  split_ifs with hjoined
  · exact iff_of_true rfl hjoined
  · exact iff_of_false (by simp) hjoined
  · exact iff_of_false (by simp) hjoined

/-- The link is the anchor, or that of a member. -/
abbrev HasLink (anchor : ChainLink) (members : List Member) (link : ChainLink) : Prop :=
  anchor = link ∨ ∃ member ∈ members, ∃ facts ∈ member.sealed, facts.link = link

theorem holdsLink_iff {link : ChainLink} :
    ledger.holdsLink link ↔ HasLink ledger.anchor ledger.members link := by
  rw [WalLedger.holdsLink, Bool.or_eq_true, decide_eq_true_eq, List.any_eq_true]
  refine or_congr_right ⟨?_, ?_⟩
  · rintro ⟨facts, hfacts, heq⟩
    obtain ⟨member, hmember, hsealed⟩ := mem_filterMap.1 hfacts
    exact ⟨member, hmember, facts, hsealed, of_decide_eq_true heq⟩
  · rintro ⟨member, hmember, facts, hfacts, heq⟩
    exact ⟨facts, mem_filterMap.2 ⟨member, hmember, hfacts⟩, decide_eq_true heq⟩

/-- The members that are kept hold the link of the catalog, and those after it have been
    planned: the chain then stands at the link of the last member. -/
theorem link_of_tail {init : List Member} {link : ChainLink} {epoch : Option ℕ}
    {state state' : ChainLink × Option ℕ} {anchor : ChainLink}
    (hrun : SealedRun anchor none init link epoch)
    (hholds : HasLink anchor init state.1)
    (htail : Run (PlannedStep probes) state
      ((init.filter (state.1.id < ·.id)).map ledger.planned) state') : state'.1 = link := by
  obtain ⟨hsorted, -, hmem⟩ := hrun.sorted
  rw [(run_members (fun m hm => hrun.isSome m (mem_of_mem_filter hm)) htail).1]
  rcases eq_nil_or_concat init with rfl | ⟨before, last, rfl⟩
  · cases hrun
    rcases hholds with rfl | ⟨_, hnil, -⟩
    · rfl
    · cases hnil
  · rw [concat_eq_append] at *
    have hlink := hrun.last_link
    rw [getLast?_concat] at hlink
    obtain ⟨hlastId, -, facts, hfacts, hid, -⟩ := hmem last (by simp)
    by_cases hlast : state.1.id < last.id
    · rw [filter_append, filter_cons_of_pos (by exact decide_eq_true hlast),
        filter_nil, getLast?_concat, bind_some, hfacts]
      rw [bind_some, hfacts] at hlink
      exact hlink
    · -- No member is after the link of the catalog, so it is that of the last one.
      have hnone : (before ++ [last]).filter (state.1.id < ·.id) = [] := by
        refine filter_eq_nil_iff.2 fun member hmember => ?_
        rw [decide_eq_true_eq, not_lt]
        rcases mem_append.1 hmember with hmember | hmember
        · have hbefore := ((pairwise_append.1 hsorted).2.2 member hmember last (by simp)).1
          exact hbefore.le.trans (not_lt.1 hlast)
        · rw [mem_singleton.1 hmember]
          exact not_lt.1 hlast
      rw [hnone]
      rcases hholds with rfl | ⟨member, hmember, sealed, hsealed', heq⟩
      · exact absurd hlastId hlast
      · obtain ⟨-, -, facts', hfacts', hid', -⟩ := hmem member hmember
        cases hfacts'.symm.trans hsealed'
        have hlast' : member = last := by
          rcases mem_append.1 hmember with hmember | hmember
          · have hbefore := ((pairwise_append.1 hsorted).2.2 member hmember last (by simp)).1
            rw [← hid', heq] at hbefore
            exact absurd hbefore hlast
          · exact mem_singleton.1 hmember
        subst hlast'
        rw [bind_some, hfacts] at hlink
        cases hfacts.symm.trans hsealed'
        exact heq.symm.trans hlink

end Continue

/-! ## The segments that salvage keeps -/

section Salvage

variable {catalog catalog' : WalPublicationCatalog} {ledger : WalLedger} {probes probes' : Probes}
  {p : RecoveryPlan} {state state' : ChainLink × Option ℕ}

/-- Where a plan of salvage stops: at an entry of the catalog, at a member of the ledger
    that joins it, or at the end of a catalog that no ledger joins. -/
inductive Stops (catalog : WalPublicationCatalog) (ledger : Option WalLedger) (probes : Probes)
    (p : RecoveryPlan) : Prop
  | atEntry {before rest : List CatalogEntry} {entry : CatalogEntry} {reason : String}
      {state : ChainLink × Option ℕ} (hsegments : catalog.segments = before ++ entry :: rest)
      (hkept : catalog.keptEntries p.retireCatalogFrom = before)
      (hrun : Run (PlannedStep probes) (catalog.anchor, none) (before.map CatalogEntry.planned)
        state)
      (hreplay : p.replay = before.map CatalogEntry.planned)
      (hhistory : p.history = historyAction catalog ledger (lineage catalog ledger)
        (some ⟨entry.id, reason⟩) (catalog.headBefore p.retireCatalogFrom))
  | atMember {l : WalLedger} {before rest : List Member} {member : Member} {reason : String}
      {state state' : ChainLink × Option ℕ} (hledger : ledger = some l)
      (hjoined : lineage catalog ledger = .joined)
      (hmembers : l.members.filter (catalog.head.id < ·.id) = before ++ member :: rest)
      (hkept : catalog.keptEntries p.retireCatalogFrom = catalog.segments)
      (hrun : Run (PlannedStep probes) (catalog.anchor, none)
        (catalog.segments.map CatalogEntry.planned) state)
      (htail : Run (PlannedStep probes) state (before.map l.planned) state')
      (hreplay : p.replay = catalog.segments.map CatalogEntry.planned ++ before.map l.planned)
      (hhistory : p.history = historyAction catalog ledger (lineage catalog ledger)
        (some ⟨member.id, reason⟩) (catalog.headBefore p.retireCatalogFrom))
  | atEnd {state : ChainLink × Option ℕ} (hjoined : lineage catalog ledger ≠ .joined)
      (hkept : catalog.keptEntries p.retireCatalogFrom = catalog.segments)
      (hrun : Run (PlannedStep probes) (catalog.anchor, none)
        (catalog.segments.map CatalogEntry.planned) state)
      (hreplay : p.replay = catalog.segments.map CatalogEntry.planned)
      (hhistory : p.history = historyAction catalog ledger (lineage catalog ledger) none
        (catalog.headBefore p.retireCatalogFrom))

/-- A plan is what the planner has admitted, finished. -/
theorem of_plan {ledger : Option WalLedger}
    (h : plan .salvage catalog ledger probes = .ok p) : ∃ (planner planner' : Planner) (hole : Option Hole),
      (Planner.new true catalog.anchor).admitAll probes catalog
        (ledger.filter fun _ => decide (lineage catalog ledger = .joined)) = .ok (planner, hole) ∧
      planner'.replay = planner.replay ∧
      p = planner'.finish catalog ledger (lineage catalog ledger) hole probes := by
  simp only [plan, except_bind_eq_ok] at h
  obtain ⟨⟨planner, hole⟩, hadmits, _, -, _, -, h⟩ := h
  cases h
  refine ⟨planner, _, hole, hadmits, ?_, rfl⟩
  rfl

/-- A plan of salvage that uses no copy from the cache keeps the published objects up to
    where it stops, and then the members of the ledger. -/
theorem stops_of_plan {ledger : Option WalLedger} (hvalid : catalog.validate = .ok ())
    (hchained : ∀ l ∈ ledger, l.Chained) (hplan : plan .salvage catalog ledger probes = .ok p)
    (hremote : ∀ segment ∈ p.replay, ∀ entry ∈ catalog.segments, segment.id = entry.id →
      segment.source = .remote)
    (hkeep : ∀ below, p.history ≠ .keep below) : Stops catalog ledger probes p := by
  obtain ⟨planner, planner', hole, hadmits, hsame, rfl⟩ := of_plan hplan
  have hchained' : ∀ l ∈ ledger.filter fun _ => decide (lineage catalog ledger = .joined),
      l.Chained := fun l hl => hchained l (filter_eq_some_iff.1 hl).1
  have hadmitted := admitted_of_admitAll hvalid hchained' hadmits
  have hreplay : (planner'.finish catalog ledger (lineage catalog ledger) hole probes).replay =
      planner.replay := by
    change hole.elim planner'.replay (fun h => planner'.replay.filter (·.id < h.id)) = _
    rw [hsame]
    cases hole with
    | none => rfl
    | some hole =>
      exact filter_eq_self.2 fun segment hsegment =>
        decide_eq_true (hadmitted.before_hole hole rfl segment hsegment)
  rw [hreplay] at hremote
  have hhole : lineage catalog ledger = .joined → hole ≠ none := by
    rintro hjoined rfl
    cases ledger with
    | none => cases hjoined
    | some l => exact hkeep _ (congrArg (historyAction catalog (some l) · none _) hjoined)
  unfold admitAll at hadmits
  obtain ⟨planner₁, hole₁, hcatalog⟩ : ∃ planner₁ hole₁,
      (new true catalog.anchor).admitCatalog probes
        (ledger.filter fun _ => decide (lineage catalog ledger = .joined)) catalog.segments =
        (planner₁, hole₁) := ⟨_, _, rfl⟩
  obtain ⟨before, after, segments, hsegments, hgrows, hstands, hend⟩ :=
    admitCatalog_spec hcatalog
  obtain ⟨hadmits₁, -, state, hstate, hrun⟩ := run_new hgrows
  -- What has been admitted of the catalog are its objects.
  have hobjects : (∀ segment ∈ segments, segment ∈ planner.replay) →
      segments = before.map CatalogEntry.planned := by
    intro hsub
    refine eq_map_planned hstands fun segment hsegment => ?_
    obtain ⟨entry, hentry, hid⟩ := (mem_of_standsFor hstands).1 segment hsegment
    refine hremote segment (hsub segment hsegment) entry ?_ hid
    rw [hsegments]
    exact mem_append_left _ hentry
  rw [hcatalog] at hadmits
  rcases hend with ⟨rfl, rfl⟩ | ⟨reason, entry, rest, rfl, rfl⟩
  · rw [append_nil] at hsegments
    subst hsegments
    by_cases hjoined : lineage catalog ledger = .joined
    · obtain ⟨l, hledger⟩ : ∃ l, ledger = some l := by
        cases ledger with
        | none => cases hjoined
        | some l => exact ⟨l, rfl⟩
      have hfilter : (ledger.filter fun _ => decide (lineage catalog ledger = .joined)) = some l := by
        rw [hledger] at hjoined ⊢
        simp [hjoined]
      rw [hfilter] at hadmits
      obtain ⟨before, after, middle, hmembers, -, hgrows', hend⟩ :=
        admitTail_spec hadmits
      obtain ⟨state', hrun', -⟩ := hgrows'.run state hstate
      rcases hend with ⟨rfl, -⟩ | ⟨reason, member, rest, rfl, rfl, rfl⟩ | ⟨_, _, _, rfl, -⟩
      · exact absurd rfl (hhole hjoined)
      · have hobjects := hobjects fun segment hsegment => by
          rw [hgrows'.replay, hadmits₁]
          exact mem_append_left _ hsegment
        have hlt : catalog.head.id < member.id := by
          have hmem : member ∈ l.members.filter (catalog.head.id < ·.id) := by
            rw [hmembers]
            simp
          simpa using (mem_filter.1 hmem).2
        have hretire := @retireCatalogFrom_of_after catalog ledger (lineage catalog ledger) probes
          planner' (some ⟨member.id, reason⟩) (by
            rintro _ ⟨⟩ entry hentry
            exact (le_head hvalid hentry).1.trans_lt hlt)
        rw [hobjects] at hrun
        refine .atMember hledger hjoined hmembers ?_ hrun hrun' ?_ rfl
        · rw [hretire, keptEntries_none]
        · rw [hreplay, hgrows'.replay, hadmits₁, hobjects]
      · exact absurd rfl (hhole hjoined)
    · have hfilter : (ledger.filter fun _ => decide (lineage catalog ledger = .joined)) = none := by
        cases ledger <;> simp [hjoined]
      rw [hfilter] at hadmits
      cases hadmits
      have hobjects := hobjects fun segment hsegment => by rwa [hadmits₁]
      rw [hobjects] at hrun
      refine .atEnd hjoined ?_ hrun ?_ rfl
      · rw [retireCatalogFrom_of_after (by simp), keptEntries_none]
      · rw [hreplay, hadmits₁, hobjects]
  · cases hadmits
    have hobjects := hobjects fun segment hsegment => by rwa [hadmits₁]
    rw [hobjects] at hrun
    obtain ⟨hretire, hkept⟩ := @retireCatalogFrom_of_entry catalog ledger (lineage catalog ledger)
      probes planner' hvalid _ _ _ reason hsegments
    refine .atEntry hsegments ?_ hrun ?_ rfl
    · rw [hretire, hkept]
    · rw [hreplay, hadmits₁, hobjects]

/-! ## The new open segment -/

/-- A ledger has been continued by a new open segment, whose id neither the catalog nor
    the ledger has handed out. -/
structure Reopened (catalog : WalPublicationCatalog) (ledger : Option WalLedger) (epoch : ℕ)
    (ledger' : WalLedger) (facts : OpenFacts) : Prop where
  opened : ledger'.openMember = .opened facts
  next : ledger'.nextSegmentId = facts.id + 1
  epoch_eq : facts.epoch = epoch
  after_catalog : catalog.nextSegmentId ≤ facts.id
  after_ledger : ∀ l ∈ ledger, l.nextSegmentId ≤ facts.id

variable {holder : HolderId} {epoch : ℕ} {ledger' : WalLedger} {anchor : ChainLink}

theorem of_carryOut_genesis (h : carryOut holder epoch none
      (.genesis anchor catalog.nextSegmentId) = .ok ledger') :
    ∃ facts, Reopened catalog none epoch ledger' facts ∧ ledger'.anchor = anchor ∧
      ledger'.members = [.opened facts] ∧ ChainRule anchor none facts := by
  simp only [carryOut, mapError_eq_ok] at h
  obtain ⟨hrule, -, rfl⟩ := of_genesis h
  exact ⟨_, ⟨rfl, rfl, rfl, le_rfl, by simp⟩, rfl, rfl, hrule⟩

theorem of_carryOut_rebase (h : carryOut holder epoch (some ledger)
      (.rebase anchor catalog.nextSegmentId) = .ok ledger') :
    ∃ facts, Reopened catalog (some ledger) epoch ledger' facts ∧ ledger'.anchor = anchor ∧
      ledger'.members = [.opened facts] ∧ ChainRule anchor none facts := by
  cases commit_eq_ok h with
  | rebase hnext hrule hbound =>
    refine ⟨_, ⟨rfl, rfl, rfl, le_max_right _ _, ?_⟩, rfl, rfl, hrule.of_epochs (by simp)⟩
    rintro _ ⟨⟩
    exact hnext

/-- Setting aside from a member on keeps the members before it. -/
theorem of_carryOut_setAside (hchained : ledger.Chained) {init rest : List Member}
    {member : Member} (hmembers : ledger.members = init ++ member :: rest)
    (h : carryOut holder epoch (some ledger)
      (.setAside member.id catalog.nextSegmentId) = .ok ledger') :
    ∃ facts link epoch', Reopened catalog (some ledger) epoch ledger' facts ∧
      ledger'.anchor = ledger.anchor ∧ ledger'.holder = ledger.holder ∧
      ledger'.members = init ++ [.opened facts] ∧
      SealedRun ledger.anchor none init link epoch' ∧ member.openFacts.prev = link ∧
      ChainRule link (some ledger.newestEpoch) facts := by
  have hsorted := hchained.sorted.1
  rw [hmembers, pairwise_append] at hsorted
  have hinit : ∀ m ∈ init, m.id < member.id := fun m hm =>
    (hsorted.2.2 m hm member (by simp)).1
  have hstart : max member.id ledger.logStart = member.id := by
    refine max_eq_left ?_
    have hhead : ledger.members.head ledger.nonempty ∈ init ∨
        ledger.members.head ledger.nonempty = member := by
      cases init with
      | nil | cons m init => simp [hmembers]
    rcases hhead with hhead | hhead
    · exact (hinit _ hhead).le
    · exact (congrArg Member.id hhead).le
  have htake : ledger.members.take (partitionPoint (·.id < member.id) ledger.members) = init := by
    rw [take_partitionPoint, hmembers, takeWhile_append_of_pos]
    · simp
    · exact fun m hm => decide_eq_true (hinit m hm)
  rw [carryOut] at h
  simp only [hstart] at h
  cases commit_eq_ok h with
  | @setAside _ _ _ prev hnext hprev hrule hbound =>
    obtain ⟨kept, last, _, _, hchained⟩ := hchained
    obtain ⟨link, epoch', hrun, hrule'⟩ := hchained.of_prefix hmembers
    rw [htake] at hprev
    obtain ⟨_, hrun'⟩ := hchained.setAside hmembers hprev
    have hlink : prev = link := hrun'.last_link.symm.trans hrun.last_link
    subst hlink
    refine ⟨_, prev, epoch', ⟨?_, rfl, rfl, le_max_right _ _, ?_⟩, rfl, rfl,
      congrArg (· ++ _) htake, hrun, hrule'.prev_eq, hrule⟩
    · simp [openMember]
    · rintro _ ⟨⟩
      exact hnext

/-! ## The members that a catalog shares with a ledger -/

/-- The end of a run is the anchor, or the link of a member. -/
theorem SealedRun.holds {anchor link : ChainLink} {members : List Member} {epoch : Option ℕ}
    (h : SealedRun anchor none members link epoch) : HasLink anchor members link := by
  have hlast := h.last_link
  obtain ⟨-, -, hmem⟩ := h.sorted
  cases hend : members.getLast? with
  | none =>
    rw [hend] at hlast
    exact .inl hlast
  | some last =>
    have hmember := mem_of_getLast? hend
    obtain ⟨-, -, facts, hfacts, -⟩ := hmem last hmember
    rw [hend, bind_some, hfacts] at hlast
    exact .inr ⟨last, hmember, facts, hfacts, hlast⟩

/-- A ledger that holds the head of the catalog, and has a member before one of the
    entries, has the segments of this entry and of those after it. -/
theorem exists_member_of_entry (hchained : ledger.Chained) {fencing minEpoch : ℕ}
    {prev : ChainLink} {entry : CatalogEntry} {rest : List CatalogEntry}
    (hvalid : EntriesValid fencing prev minEpoch (entry :: rest))
    (hanchor : ledger.anchor.id < entry.id)
    (hsame : ∀ member ∈ ledger.members, ∀ sealed ∈ member.sealed, ∀ e ∈ rest,
      sealed.link = e.link → member.openFacts.prev = e.prev)
    (hholds : ledger.holdsLink (WalPublicationCatalog.linkAfter entry.link rest)) :
    ∃ member ∈ ledger.members, ∃ facts ∈ member.sealed, facts.link = entry.link := by
  -- The anchor is before the entry, so the link is that of a member.
  have hne : ledger.anchor ≠ entry.link := fun heq => hanchor.ne (congrArg ChainLink.id heq)
  induction rest generalizing prev minEpoch entry with
  | nil => exact (holdsLink_iff.1 hholds).resolve_left hne
  | cons next rest ih =>
    obtain ⟨-, -, -, -, -, -, hnext⟩ := hvalid
    have hprev : next.prev = entry.link := hnext.1
    have hid : ledger.anchor.id < next.id := hanchor.trans hnext.2.1.1
    rw [linkAfter_cons] at hholds
    obtain ⟨member, hmem, facts, hfacts, hlink⟩ := ih hnext hid
      (fun member hmember sealed hsealed e he => hsame member hmember sealed hsealed e (.tail _ he))
      hholds fun heq => hid.ne (congrArg ChainLink.id heq)
    have hbefore := hsame member hmem facts hfacts next (.head _) hlink
    obtain ⟨init, after, hsplit⟩ := append_of_mem hmem
    obtain ⟨kept, last, _, _, hchained⟩ := hchained
    obtain ⟨link, epoch, hrun, hrule⟩ := hchained.of_prefix hsplit
    have heq : link = entry.link := hrule.prev_eq.symm.trans (hbefore.trans hprev)
    rw [heq] at hrun
    obtain ⟨member', hmember', hfacts'⟩ := hrun.holds.resolve_left hne
    refine ⟨member', ?_, hfacts'⟩
    rw [hsplit]
    exact mem_append_left _ hmember'

/-! ## Planning again -/

/-- Segments that are read as before are planned as before. -/
theorem run_again {segments : List PlannedSegment}
    (h : Run (PlannedStep probes) state segments state')
    (hread : ∀ segment ∈ segments,
      probes'.read segment.source segment.id = probes.read segment.source segment.id) :
    Run (PlannedStep probes') state segments state' := by
  refine h.imp fun segment hsegment s s' hstep => ?_
  obtain ⟨header, link, hprobe, hrest⟩ := hstep
  exact ⟨header, link, (hread segment hsegment).trans hprobe, hrest⟩

section

variable (h : ReadAgain probes probes' catalog' ledger')

include h

theorem ReadAgain.entries
    (hrun : Run (PlannedStep probes) state (catalog'.segments.map CatalogEntry.planned) state') :
    Run (PlannedStep probes') state (catalog'.segments.map CatalogEntry.planned) state' := by
  refine run_again hrun fun segment hsegment => ?_
  obtain ⟨entry, hentry, rfl⟩ := mem_map.1 hsegment
  exact h.remote entry hentry

theorem ReadAgain.members {members : List Member}
    (hmembers : ∀ member ∈ members, member ∈ ledger'.members ∧ member.sealed.isSome)
    (hrun : Run (PlannedStep probes) state (members.map ledger'.planned) state') :
    Run (PlannedStep probes') state (members.map ledger'.planned) state' := by
  refine run_again hrun fun segment hsegment => ?_
  obtain ⟨member, hmember, rfl⟩ := mem_map.1 hsegment
  exact h.cached member (hmembers member hmember).1 (hmembers member hmember).2

theorem ReadAgain.openMember {facts : OpenFacts} (hopened : ledger'.openMember = .opened facts) :
    probes'.cached facts.id = some (.opened (facts.created ledger'.holder)) := by
  have hread := h.opened
  rw [WalLedger.openSegment, hopened] at hread
  exact hread

end

theorem epoch_le_fencing {fencing minEpoch : ℕ} {prev : ChainLink} {entries : List CatalogEntry}
    (h : EntriesValid fencing prev minEpoch entries) :
    ∀ entry ∈ entries, entry.epoch ≤ fencing := by
  induction entries generalizing prev minEpoch with
  | nil => simp
  | cons entry entries ih =>
    obtain ⟨-, -, -, hepoch, -, -, hrest⟩ := h
    exact forall_mem_cons.2 ⟨hepoch, ih hrest⟩

theorem planned_eq (h : ledger'.holder = ledger.holder) : ledger'.planned = ledger.planned := by
  funext member
  rw [planned, planned, h]

/-- What the next plan finds. -/
def Converges (p : RecoveryPlan) (catalog' : WalPublicationCatalog) (ledger' : WalLedger)
    (probes' : Probes) : Prop :=
  lineage catalog' (some ledger') = .joined ∧
    ∃ p', plan .strict catalog' (some ledger') probes' = .ok p' ∧ p'.Clean ∧ p'.replay = p.replay

/-- The catalog after salvage: its entries are those that are kept. -/
structure CatalogKept (catalog catalog' : WalPublicationCatalog) (p : RecoveryPlan) (epoch : ℕ) :
    Prop where
  anchor : catalog'.anchor = catalog.anchor
  segments : catalog'.segments = catalog.keptEntries p.retireCatalogFrom
  next : catalog'.nextSegmentId = catalog.nextSegmentId
  epochs : ∀ entry ∈ catalog'.segments, entry.epoch ≤ epoch

theorem CatalogKept.head (h : CatalogKept catalog catalog' p epoch) :
    catalog'.head = catalog.headBefore p.retireCatalogFrom := by
  rw [head_eq, h.anchor, h.segments, headBefore_eq]

theorem catalogKept {floor : ℕ} {expected : List CatalogEntry} {changed : Bool}
    (hvalid : catalog.validate = .ok ())
    (h : WalPublicationCatalog.setAsideSuffix epoch p.retireCatalogFrom expected floor catalog =
      .ok changed catalog') : CatalogKept catalog catalog' p epoch := by
  obtain ⟨rfl, rfl⟩ := of_setAsideSuffix h
  refine ⟨rfl, rfl, rfl, fun entry hentry => ?_⟩
  exact epoch_le_fencing (validate_eq_ok.1 hvalid).entries entry
    (( takeWhile_prefix _).subset hentry)

/-- The id of every member has been handed out. -/
theorem id_lt_next (h : ledger.Chained) {member : Member} (hmember : member ∈ ledger.members) :
    member.id < ledger.nextSegmentId := by
  obtain ⟨kept, last, link, epoch, hby⟩ := id h
  rw [hby.next]
  exact Nat.lt_succ_of_le (h.le_open (by simp [hby.members]) hby.unsealed hmember)

section

variable (hcatalog : CatalogKept catalog catalog' p epoch)
  (hprobes : ReadAgain probes probes' catalog' ledger')

include hcatalog hprobes

/-- A history that goes on after some of its members is planned as it is: the entries,
    and the members after the head of the catalog. -/
theorem converges_of_kept {init : List Member} {facts : OpenFacts} {link : ChainLink}
    {epoch' : Option ℕ} {l : Option WalLedger}
    (hreopened : Reopened catalog l epoch ledger' facts)
    (hmembers : ledger'.members = init ++ [.opened facts])
    (hsealed : SealedRun ledger'.anchor none init link epoch') (hrule : ChainRule link none facts)
    (hholds : HasLink ledger'.anchor init catalog'.head) (hid : catalog'.head.id < facts.id)
    (hcontinues : ∀ member ∈ (init.filter (catalog'.head.id < ·.id)).head?,
      catalog.nextSegmentId ≤ member.id)
    (hentries : Run (PlannedStep probes) (catalog.anchor, none)
      (catalog'.segments.map CatalogEntry.planned) state)
    (htail : Run (PlannedStep probes) state
      ((init.filter (catalog'.head.id < ·.id)).map ledger'.planned) state')
    (hepochs : ∀ member ∈ init, member.openFacts.epoch ≤ facts.epoch)
    (hreplay : p.replay = catalog'.segments.map CatalogEntry.planned ++
      (init.filter (catalog'.head.id < ·.id)).map ledger'.planned) :
    Converges p catalog' ledger' probes' := by
  rw [← hcatalog.anchor] at hentries
  obtain ⟨hlink, hepoch⟩ := run_entries hentries
  have hhead : catalog'.head = state.1 := hlink.symm
  have hmem : ∀ member ∈ init.filter (catalog'.head.id < ·.id),
      member ∈ ledger'.members ∧ member.sealed.isSome := by
    intro member hmember
    have hinit := mem_of_mem_filter hmember
    exact ⟨by simp [hmembers, hinit], hsealed.isSome member hinit⟩
  have hfilter : ledger'.members.filter (catalog'.head.id < ·.id) =
      init.filter (catalog'.head.id < ·.id) ++ [.opened facts] := by
    rw [hmembers, filter_append, filter_cons_of_pos (by exact decide_eq_true hid)]
    rfl
  have hlineage : lineage catalog' (some ledger') = .joined := by
    refine lineage_eq_joined.2 ⟨?_, ?_⟩
    · refine holdsLink_iff.2 (hholds.imp_right ?_)
      rintro ⟨member, hmember, hfacts⟩
      exact ⟨member, by simp [hmembers, hmember], hfacts⟩
    · have hfind : (ledger'.members.map (·.id)).find? (catalog'.head.id < ·) =
          (init.filter (catalog'.head.id < ·.id) ++ [Member.opened facts]).head?.map Member.id := by
        rw [← hfilter, head?_filter, find?_map]
        rfl
      rw [hfind, hcatalog.next]
      cases hfirst : init.filter (catalog'.head.id < ·.id) with
      | nil => exact hreopened.after_catalog
      | cons member _ => exact hcontinues member (by rw [hfirst]; rfl)
  have hrule' : ChainRule state'.1 state'.2 facts := by
    have hlast : state'.1 = link := by
      rw [hhead] at htail hholds
      exact link_of_tail hsealed hholds htail
    rw [hlast]
    refine ChainRule.of_epochs hrule fun e he => ?_
    rcases (run_members (fun m hm => (hmem m hm).2) htail).2 e he with he | ⟨member, hmember, rfl⟩
    · rcases hepoch e he with he | ⟨entry, hentry, rfl⟩
      · cases he
      · exact (hcatalog.epochs entry hentry).trans hreopened.epoch_eq.ge
    · exact hepochs member (mem_of_mem_filter hmember)
  obtain ⟨p', hplan, hclean, hreplay'⟩ := strict_plan hlineage hfilter (fun m hm => (hmem m hm).2)
    rfl (hprobes.entries hentries) (hprobes.members hmem htail) hrule'
    (hprobes.openMember hreopened.opened)
  exact ⟨hlineage, p', hplan, hclean, hreplay'.trans hreplay.symm⟩

/-- A history that starts again at the head of what is kept. -/
theorem converges_at_head {facts : OpenFacts} {l : Option WalLedger}
    (hreopened : Reopened catalog l epoch ledger' facts)
    (hanchor : ledger'.anchor = catalog.headBefore p.retireCatalogFrom)
    (hmembers : ledger'.members = [.opened facts])
    (hrule : ChainRule (catalog.headBefore p.retireCatalogFrom) none facts)
    (hrun : Run (PlannedStep probes) (catalog.anchor, none)
      ((catalog.keptEntries p.retireCatalogFrom).map CatalogEntry.planned) state)
    (hreplay : p.replay = (catalog.keptEntries p.retireCatalogFrom).map CatalogEntry.planned) :
    Converges p catalog' ledger' probes' := by
  rw [← hcatalog.head] at hanchor hrule
  rw [← hcatalog.segments] at hrun hreplay
  exact converges_of_kept hcatalog hprobes hreopened hmembers .nil (hanchor ▸ hrule) (.inl hanchor)
    hrule.id (by simp) hrun .nil (by simp) (hreplay.trans (append_nil _).symm)

/-- Members are set aside from that of an entry on: those before it end at the head of
    what is kept of the catalog. -/
theorem converges_at_entry (hvalid : catalog.validate = .ok ()) (hchained : ledger.Chained)
    (hsame : SameSegments catalog ledger) (hjoined : lineage catalog (some ledger) = .joined)
    {before rest : List CatalogEntry} {entry : CatalogEntry}
    (hsegments : catalog.segments = before ++ entry :: rest)
    (hkept : catalog.keptEntries p.retireCatalogFrom = before)
    (hmember : keptBefore ledger catalog.anchor.id entry.id)
    (hledger : carryOut holder epoch (some ledger)
      (.setAside entry.id catalog.nextSegmentId) = .ok ledger')
    (hrun : Run (PlannedStep probes) (catalog.anchor, none) (before.map CatalogEntry.planned) state)
    (hreplay : p.replay = before.map CatalogEntry.planned) :
    ∃ facts, Reopened catalog (some ledger) epoch ledger' facts ∧
      Converges p catalog' ledger' probes' := by
  have hentries := (validate_eq_ok.1 hvalid).entries
  rw [hsegments, entriesValid_append] at hentries
  have hhead : catalog'.head = linkAfter catalog.anchor before := by
    rw [hcatalog.head, headBefore_eq, hkept]
  have hanchor : ledger.anchor.id < entry.id := by
    obtain ⟨id, hid, hlt⟩ := any_eq_true.1 hmember
    obtain ⟨m, hm, rfl⟩ := mem_map.1 hid
    exact (hchained.sorted.2 m hm).1.trans (of_decide_eq_true hlt).2
  -- The ledger has the segment of the entry, with the same link before it.
  obtain ⟨member, hmem, sealed, hsealed, hlink⟩ := exists_member_of_entry hchained hentries.2
    hanchor (fun m hm f hf e he => hsame m hm f hf e (by simp [hsegments, he])) (by
      have hholds := (lineage_eq_joined.1 hjoined).1
      rw [head_eq, hsegments, linkAfter,
        getLast?_append, getLast?_cons, some_or] at hholds
      rw [linkAfter]
      cases hlast : rest.getLast? with
      | none => simpa [hlast] using hholds
      | some last => simpa [hlast] using hholds)
  have hprev : member.openFacts.prev = catalog'.head := by
    rw [hsame member hmem sealed hsealed entry (by simp [hsegments]) hlink, hhead]
    exact hentries.2.1
  have hid : member.id = entry.id := by
    rw [← (hchained.sorted.2 member hmem).2 sealed hsealed, hlink]
    rfl
  obtain ⟨init, after, hsplit⟩ := append_of_mem hmem
  rw [← hid] at hledger
  obtain ⟨facts, link, epoch', hreopened, hanchor', hholder, hmembers', hsealedRun, hlink', hrule⟩ :=
    of_carryOut_setAside hchained hsplit hledger
  obtain rfl : link = catalog'.head := hlink'.symm.trans hprev
  obtain ⟨-, -, hinit⟩ := hsealedRun.sorted
  have htail : init.filter (catalog'.head.id < ·.id) = [] :=
    filter_eq_nil_iff.2 fun m hm => by simpa using (hinit m hm).2.1
  rw [← hkept, ← hcatalog.segments] at hrun hreplay
  exact ⟨facts, hreopened, converges_of_kept hcatalog hprobes hreopened hmembers'
    (hanchor' ▸ hsealedRun) (hrule.of_epochs (by simp)) (hanchor' ▸ hsealedRun.holds) hrule.id
    (by simp [htail]) hrun (by rw [htail]; exact .nil)
    (fun m hm => (epoch_le_newestEpoch (by simp [hsplit, hm])).trans (hrule.epoch _ rfl))
    (by rw [htail, map_nil, append_nil, hreplay])⟩

/-- Members are set aside from one after the head of the catalog on. -/
theorem converges_at_member (hchained : ledger.Chained)
    (hjoined : lineage catalog (some ledger) = .joined)
    (hkept : catalog.keptEntries p.retireCatalogFrom = catalog.segments)
    {before rest : List Member} {member : Member}
    (hmembers : ledger.members.filter (catalog.head.id < ·.id) = before ++ member :: rest)
    (hledger : carryOut holder epoch (some ledger)
      (.setAside member.id catalog.nextSegmentId) = .ok ledger')
    (hrun : Run (PlannedStep probes) (catalog.anchor, none)
      (catalog.segments.map CatalogEntry.planned) state)
    (htail : Run (PlannedStep probes) state (before.map ledger.planned) state')
    (hreplay : p.replay =
      catalog.segments.map CatalogEntry.planned ++ before.map ledger.planned) :
    ∃ facts, Reopened catalog (some ledger) epoch ledger' facts ∧
      Converges p catalog' ledger' probes' := by
  have hsegments : catalog'.segments = catalog.segments := hcatalog.segments.trans hkept
  have hhead : catalog'.head = catalog.head := by
    rw [head_eq, head_eq, hcatalog.anchor, hsegments]
  obtain ⟨hholds, hcontinues⟩ := lineage_eq_joined.1 hjoined
  -- The members up to the hole are those up to the head, and then those before the hole.
  obtain ⟨init, after, hsplit, hbefore, hlt⟩ : ∃ init after,
      ledger.members = init ++ member :: after ∧
        init.filter (catalog.head.id < ·.id) = before ∧ catalog.head.id < member.id := by
    obtain ⟨low, high, hsplit, hlow, hhigh⟩ := filter_eq_append_iff.1 hmembers
    obtain ⟨skipped, after, rfl, hskipped, hmember, -⟩ := filter_eq_cons_iff.1 hhigh
    refine ⟨low ++ skipped, after, by rw [hsplit, append_assoc], ?_,
      of_decide_eq_true hmember⟩
    rw [filter_append, hlow, filter_eq_nil_iff.2 hskipped, append_nil]
  obtain ⟨facts, link, epoch', hreopened, hanchor', hholder, hmembers', hsealedRun, hlink', hrule⟩ :=
    of_carryOut_setAside hchained hsplit hledger
  -- The head is the link of a member that is kept.
  have hholds' : HasLink ledger.anchor init catalog.head := by
    rcases holdsLink_iff.1 hholds with heq | ⟨m, hm, f, hf, heq⟩
    · exact .inl heq
    · refine .inr ⟨m, ?_, f, hf, heq⟩
      have hid : m.id < member.id := by
        rw [← (hchained.sorted.2 m hm).2 f hf, heq]
        exact hlt
      have hsorted := hchained.sorted.1
      rw [hsplit, pairwise_append, pairwise_cons] at hsorted
      rw [hsplit, mem_append, mem_cons] at hm
      rcases hm with hm | rfl | hm
      · exact hm
      · exact absurd hid (lt_irrefl _)
      · exact absurd (hsorted.2.1.1 m hm).1 (not_lt.2 hid.le)
  have hfirst : ∀ m ∈ before.head?, catalog.nextSegmentId ≤ m.id := by
    intro m hm
    have hfind : (ledger.members.map (·.id)).find? (catalog.head.id < ·) = some m.id := by
      rw [find?_map, ← head?_filter]
      have hall : ledger.members.filter ((fun x => decide (catalog.head.id < x)) ∘ Member.id) =
          before ++ member :: rest := hmembers
      rw [hall, head?_append, show before.head? = some m from hm]
      rfl
    rw [hfind] at hcontinues
    exact hcontinues
  have hid := hlt.trans ((id_lt_next hchained (by simp [hsplit])).trans_le
    (hreopened.after_ledger _ rfl))
  rw [← hsegments] at hrun hreplay
  rw [← planned_eq hholder, ← hbefore] at htail hreplay
  rw [← hbefore] at hfirst
  rw [← hhead] at hholds' hfirst htail hreplay hid
  exact ⟨facts, hreopened, converges_of_kept hcatalog hprobes hreopened hmembers'
    (hanchor' ▸ hsealedRun) (hrule.of_epochs (by simp)) (hanchor' ▸ hholds') hid hfirst hrun htail
    (fun m hm => (epoch_le_newestEpoch (by simp [hsplit, hm])).trans (hrule.epoch _ rfl)) hreplay⟩

end

/-- Where no member is kept before the hole, the history starts again. -/
theorem historyAction_starts {ledger : Option WalLedger} {lin : Lineage} {hole : Option Hole}
    {head : ChainLink}
    (h : ∀ l ∈ ledger, lin = .joined → ∃ h ∈ hole, ¬ keptBefore l catalog.anchor.id h.id) :
    historyAction catalog ledger lin hole head = .genesis head catalog.nextSegmentId ∨
      historyAction catalog ledger lin hole head = .rebase head catalog.nextSegmentId := by
  cases ledger with
  | none => exact .inl rfl
  | some l =>
    cases lin with
    | fresh => exact .inl rfl
    | behind _ | diverged => exact .inr rfl
    | joined =>
      obtain ⟨hole, rfl, hnot⟩ := h l rfl rfl
      exact .inr (if_neg hnot)

/-- Whatever the plan, the next one finds what salvage has kept. -/
theorem converges_of_stops {ledger : Option WalLedger} (hvalid : catalog.validate = .ok ())
    (hchained : ∀ l ∈ ledger, l.Chained) (hsame : ∀ l ∈ ledger, SameSegments catalog l)
    (hstops : Stops catalog ledger probes p) (hcatalog : CatalogKept catalog catalog' p epoch)
    (hledger : carryOut holder epoch ledger p.history = .ok ledger')
    (hprobes : ReadAgain probes probes' catalog' ledger') :
    ∃ facts, Reopened catalog ledger epoch ledger' facts ∧
      Converges p catalog' ledger' probes' := by
  -- A history that starts again is the same in every case.
  have hagain : ∀ {state : ChainLink × Option ℕ}, Run (PlannedStep probes) (catalog.anchor, none)
      ((catalog.keptEntries p.retireCatalogFrom).map CatalogEntry.planned) state →
      p.replay = (catalog.keptEntries p.retireCatalogFrom).map CatalogEntry.planned →
      (p.history = .genesis (catalog.headBefore p.retireCatalogFrom) catalog.nextSegmentId ∨
        p.history = .rebase (catalog.headBefore p.retireCatalogFrom) catalog.nextSegmentId) →
      ∃ facts, Reopened catalog ledger epoch ledger' facts ∧
        Converges p catalog' ledger' probes' := by
    intro state hrun hreplay hhistory
    obtain ⟨facts, hreopened, hanchor, hmembers, hrule⟩ : ∃ facts,
        Reopened catalog ledger epoch ledger' facts ∧
        ledger'.anchor = catalog.headBefore p.retireCatalogFrom ∧
        ledger'.members = [.opened facts] ∧
        ChainRule (catalog.headBefore p.retireCatalogFrom) none facts := by
      rcases hhistory with hhistory | hhistory
      · rw [hhistory] at hledger
        cases ledger with
        | none => exact of_carryOut_genesis hledger
        | some l => cases hledger
      · rw [hhistory] at hledger
        cases ledger with
        | none => cases hledger
        | some l => exact of_carryOut_rebase hledger
    exact ⟨facts, hreopened, converges_at_head hcatalog hprobes hreopened hanchor hmembers hrule
      hrun hreplay⟩
  cases hstops with
  | @atEntry before rest entry reason state hsegments hkept hrun hreplay hhistory =>
    by_cases haside : ∃ l, ledger = some l ∧ lineage catalog ledger = .joined ∧
        keptBefore l catalog.anchor.id entry.id
    · obtain ⟨l, rfl, hjoined, hmember⟩ := haside
      rw [hjoined] at hhistory
      simp only [historyAction, hmember, if_true] at hhistory
      rw [hhistory] at hledger
      exact converges_at_entry hcatalog hprobes hvalid (hchained l rfl) (hsame l rfl) hjoined
        hsegments hkept hmember hledger hrun hreplay
    · refine hagain (hkept ▸ hrun) (hkept ▸ hreplay) ?_
      rw [hhistory]
      exact historyAction_starts fun l hl hjoined => ⟨_, rfl, fun h => haside ⟨l, hl, hjoined, h⟩⟩
  | @atMember l before rest member reason state state' hsome hjoined hmembers hkept hrun htail
      hreplay hhistory =>
    subst hsome
    rw [hjoined] at hhistory
    by_cases hmember : keptBefore l catalog.anchor.id member.id
    · simp only [historyAction, hmember, if_true] at hhistory
      rw [hhistory] at hledger
      exact converges_at_member hcatalog hprobes (hchained l rfl) hjoined hkept hmembers hledger
        hrun htail hreplay
    · have hnil : before = [] := by
        refine eq_nil_iff_forall_not_mem.2 fun m hm => hmember ?_
        have hsorted := (hchained l rfl).sorted.1.filter (catalog.head.id < ·.id)
        have hmem : m ∈ l.members.filter (catalog.head.id < ·.id) := by simp [hmembers, hm]
        rw [hmembers, pairwise_append] at hsorted
        obtain ⟨hm', hlt⟩ := mem_filter.1 hmem
        refine any_eq_true.2 ⟨m.id, mem_map_of_mem hm', decide_eq_true ⟨?_, ?_⟩⟩
        · exact (anchor_le_head hvalid).trans_lt (of_decide_eq_true hlt)
        · exact (hsorted.2.2 m hm member (by simp)).1
      subst hnil
      rw [map_nil, append_nil] at hreplay
      refine hagain (hkept.symm ▸ hrun) (hkept.symm ▸ hreplay) (.inr ?_)
      rw [hhistory]
      exact if_neg hmember
  | atEnd hjoined hkept hrun hreplay hhistory =>
    refine hagain (hkept.symm ▸ hrun) (hkept.symm ▸ hreplay) ?_
    rw [hhistory]
    exact historyAction_starts fun _ _ h => absurd h hjoined

/-- After salvage has been carried out, recovery goes on as if nothing had been lost: a
    strict plan succeeds, on a ledger that joins the catalog, and replays what the plan of
    salvage has kept. No id that has been set aside is handed out again. -/
theorem salvage_converges (catalog catalog' : WalPublicationCatalog) (ledger : Option WalLedger)
    (ledger' : WalLedger) (probes probes' : Probes) (p : RecoveryPlan) (holder : HolderId)
    (epoch : ℕ) (changed : Bool) (hvalid : catalog.validate = .ok ())
    (hchained : ∀ l ∈ ledger, l.Chained) (hplan : plan .salvage catalog ledger probes = .ok p)
    -- No published segment is replayed from its copy in the cache.
    (hremote : ∀ segment ∈ p.replay, ∀ entry ∈ catalog.segments, segment.id = entry.id →
      segment.source = .remote)
    (hsame : ∀ l ∈ ledger, SameSegments catalog l)
    (hkeep : ∀ below, p.history ≠ .keep below)
    (hcatalog : WalPublicationCatalog.setAsideSuffix epoch p.retireCatalogFrom p.setAsideEntries
      p.catalogFloor catalog = .ok changed catalog')
    (hledger : carryOut holder epoch ledger p.history = .ok ledger')
    (hprobes : ReadAgain probes probes' catalog' ledger') :
    lineage catalog' (some ledger') = .joined ∧
      (∃ p', plan .strict catalog' (some ledger') probes' = .ok p' ∧ p'.Clean ∧
        p'.replay = p.replay) ∧
      (∀ id, ((∃ entry ∈ p.setAsideEntries, entry.id = id) ∨
          ∃ l ∈ ledger, ∃ member ∈ l.members, p.history.SetsAside member.id ∧ member.id = id) →
        id < ledger'.openSegment ∧ ∀ edits, id ∉ ledger'.openedIds edits) ∧
      ∀ entry ∈ p.setAsideEntries, entry.id < catalog'.nextSegmentId := by
  have hkept := catalogKept hvalid hcatalog
  have hentries : ∀ entry ∈ p.setAsideEntries, entry.id < catalog.nextSegmentId := by
    intro entry hentry
    obtain ⟨planner, planner', hole, -, -, rfl⟩ := of_plan hplan
    obtain ⟨_, -, hmem, -⟩ := mem_setAsideEntries.1 hentry
    exact (le_head hvalid hmem).1.trans_lt
      (of_validate hvalid).2.2
  have hstops := stops_of_plan hvalid hchained hplan hremote hkeep
  obtain ⟨facts, hreopened, hjoined, hstrict⟩ := converges_of_stops hvalid hchained hsame hstops
    hkept hledger hprobes
  refine ⟨hjoined, hstrict, fun id hid => ?_, fun entry hentry => ?_⟩
  swap
  · rw [hkept.next]
    exact hentries entry hentry
  have hlt : id < facts.id := by
    rcases hid with ⟨entry, hentry, rfl⟩ | ⟨l, hl, member, hmember, -, rfl⟩
    · exact (hentries entry hentry).trans_le hreopened.after_catalog
    · exact (id_lt_next (hchained l hl) hmember).trans_le (hreopened.after_ledger l hl)
  constructor
  · rw [WalLedger.openSegment, hreopened.opened]
    exact hlt
  · intro edits hmem
    have hle := (openedIds_sorted ledger' edits).2 id hmem
    rw [hreopened.next] at hle
    exact absurd hle (not_le.2 (hlt.trans (Nat.lt_succ_self _)))

end Salvage

/-! ## A damaged object, and a damaged member -/

/-- The catalog that has the first segment. -/
def firstCatalog : WalPublicationCatalog := ⟨catalogFormatVersion, 1, .genesis, 2, 0, 0, [firstEntry]⟩

/-- A ledger with the first segment, an empty one, and the open one. -/
def thirdLedger : WalLedger := firstLedger.tryAll
  [.rotate firstEntry.facts ⟨2, 1, 6, firstEntry.link⟩,
    .rotate ⟨⟨2, 5, .replicate 16 (byte 3)⟩, 0, 128, []⟩ ⟨3, 1, 6, ⟨2, 5, .replicate 16 (byte 3)⟩⟩]

/-- The first segment, as it has been written. -/
def firstSealed : Probe := .sealed ⟨1, 1, .replicate 16 (byte 1), 1, .genesis⟩ firstEntry.link

/-- The second segment is damaged; the open one after salvage is the fourth. -/
def salvageProbes (object : Probe) : Probes where
  remote _ := some object
  cached id :=
    if id = 1 then some firstSealed
    else if id = 2 then some (.damaged "damaged" 0)
    else if id = 4 then
      some (.opened ((openingFacts 4 1 firstEntry.link).created (.replicate 16 (byte 1))))
    else none

/-- What salvage leaves of the catalog. -/
def salvagedCatalog : WalPublicationCatalog := { firstCatalog with seqFloor := 5 }

/-- What salvage leaves of the ledger. -/
def salvagedLedger : WalLedger where
  holder := .replicate 16 (byte 1)
  anchor := .genesis
  members := [⟨firstFacts, some firstEntry.facts, some 128⟩,
    .opened (openingFacts 4 1 firstEntry.link)]
  nextSegmentId := 5
  seqReservedThrough := 0
  nonempty := by simp

theorem chained_thirdLedger : thirdLedger.Chained :=
  @WalLedger.chained_tryAll _ (.replicate 16 (byte 1)) .genesis firstFacts rfl _

theorem sameSegments_thirdLedger : SameSegments firstCatalog thirdLedger := by
  have hmembers : thirdLedger.members = [⟨firstFacts, some firstEntry.facts, some 128⟩,
      ⟨⟨2, 1, 6, firstEntry.link⟩, some ⟨⟨2, 5, .replicate 16 (byte 3)⟩, 0, 128, []⟩, some 128⟩,
      .opened ⟨3, 1, 6, ⟨2, 5, .replicate 16 (byte 3)⟩⟩] := rfl
  intro member hmember sealed hsealed entry hentry hlink
  cases mem_singleton.1 hentry
  rw [hmembers, mem_cons, mem_cons, mem_singleton] at hmember
  rcases hmember with rfl | rfl | rfl
  · rfl
  · cases hsealed
    exact absurd (congrArg ChainLink.id hlink) (by decide)
  · cases hsealed

theorem readAgain_salvage (object : Probe) :
    ReadAgain (salvageProbes object) (salvageProbes object) salvagedCatalog salvagedLedger :=
  ⟨fun _ _ => rfl, fun _ _ _ => rfl, rfl⟩

/-- A damaged object whose copy in the cache is replayed stays damaged, and so the next
    strict plan refuses it. -/
theorem fallback_does_not_converge : firstCatalog.validate = .ok () ∧ thirdLedger.Chained ∧
    SameSegments firstCatalog thirdLedger ∧
    ∃ p changed, plan .salvage firstCatalog (some thirdLedger)
        (salvageProbes (.damaged "damaged" 0)) = .ok p ∧
      p.history = .setAside 2 2 ∧
      WalPublicationCatalog.setAsideSuffix 1 p.retireCatalogFrom p.setAsideEntries p.catalogFloor
        firstCatalog = .ok changed salvagedCatalog ∧
      WalLedger.carryOut (.replicate 16 (byte 1)) 1 (some thirdLedger) p.history =
        .ok salvagedLedger ∧
      ReadAgain (salvageProbes (.damaged "damaged" 0)) (salvageProbes (.damaged "damaged" 0))
        salvagedCatalog salvagedLedger ∧
      plan .strict salvagedCatalog (some salvagedLedger) (salvageProbes (.damaged "damaged" 0)) =
        .error (.unreplayable "damaged") :=
  ⟨rfl, chained_thirdLedger, sameSegments_thirdLedger, _, _, rfl, rfl, rfl, rfl,
    readAgain_salvage _, rfl⟩

theorem salvage_converges_third : ∃ p,
    plan .salvage firstCatalog (some thirdLedger) (salvageProbes firstSealed) = .ok p ∧
      ∃ p', plan .strict salvagedCatalog (some salvagedLedger) (salvageProbes firstSealed) =
          .ok p' ∧ p'.Clean ∧ p'.replay = p.replay := by
  obtain ⟨p, hplan, hreplay, hhistory, hcatalog, hledger⟩ : ∃ p,
      plan .salvage firstCatalog (some thirdLedger) (salvageProbes firstSealed) = .ok p ∧
        p.replay = [firstEntry.planned] ∧ p.history = .setAside 2 2 ∧
        setAsideSuffix 1 p.retireCatalogFrom p.setAsideEntries p.catalogFloor
          firstCatalog = .ok true salvagedCatalog ∧
        carryOut (.replicate 16 (byte 1)) 1 (some thirdLedger) p.history =
          .ok salvagedLedger := ⟨_, rfl, rfl, rfl, rfl, rfl⟩
  refine ⟨p, hplan, (salvage_converges firstCatalog salvagedCatalog (some thirdLedger)
    salvagedLedger (salvageProbes firstSealed) (salvageProbes firstSealed) p
    (.replicate 16 (byte 1)) 1 true rfl ?_ hplan ?_ ?_ ?_ hcatalog hledger
    (readAgain_salvage _)).2.1⟩
  · rintro _ ⟨⟩
    exact chained_thirdLedger
  · intro segment hsegment _ _ _
    rw [hreplay, mem_singleton] at hsegment
    rw [hsegment]
    rfl
  · rintro _ ⟨⟩
    exact sameSegments_thirdLedger
  · intro below hkeep
    rw [hhistory] at hkeep
    cases hkeep

end Midge
