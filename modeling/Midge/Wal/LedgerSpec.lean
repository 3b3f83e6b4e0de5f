import Midge.Wal.Ledger

/-!
# What the edits of a ledger preserve

The members of a ledger are a run of sealed segments from the anchor on, and an open
segment that follows the run (`WalLedger.Chained`). An edit that is accepted extends
the run, cuts it at either end or replaces it (`WalLedger.Accepts`), so every ledger
reached from genesis is chained, whatever edits have been tried on it.

The image of a chained ledger can be read back when the byte boundary of every member
is within its segment (`WalLedger.loads_iff`). Two of the edits do not check this: a
rotation may seal fewer bytes than have been synced, and a cut may end within the
header of the segment (`LedgerEdit.Measured`).
-/

namespace Midge

open WalLedger List Update

/-! ## Runs of sealed segments -/

/-- Sealed members that follow one another, from the link and the epoch before the
    first one to those of the last one. -/
inductive SealedRun : ChainLink → Option ℕ → List Member → ChainLink → Option ℕ → Prop
  | nil {link : ChainLink} {epoch : Option ℕ} : SealedRun link epoch [] link epoch
  | cons {prev link : ChainLink} {epoch epoch' : Option ℕ} {member : Member} {facts : SealedFacts}
      {members : List Member} (hrule : ChainRule prev epoch member.openFacts)
      (hsealed : member.sealed = some facts) (hseals : seals member.openFacts facts = .ok ())
      (hrest : SealedRun facts.link (some member.openFacts.epoch) members link epoch') :
      SealedRun prev epoch (member :: members) link epoch'

variable {member : Member}

namespace SealedRun

variable {prev link link' : ChainLink} {epoch epoch' epoch'' : Option ℕ} {members members' : List Member}

theorem append (h : SealedRun prev epoch members link epoch')
    (h' : SealedRun link epoch' members' link' epoch'') :
    SealedRun prev epoch (members ++ members') link' epoch'' := by
  induction h with
  | nil => exact h'
  | cons hrule hsealed hseals _ ih => exact .cons hrule hsealed hseals (ih h')

/-- A run can be cut anywhere. -/
theorem of_append (h : SealedRun prev epoch (members ++ members') link' epoch'') :
    ∃ link epoch', SealedRun prev epoch members link epoch' ∧
      SealedRun link epoch' members' link' epoch'' := by
  induction members generalizing prev epoch with
  | nil => exact ⟨prev, epoch, .nil, h⟩
  | cons member members ih =>
    cases h with
    | cons hrule hsealed hseals hrest =>
      obtain ⟨link, epoch', hfirst, hsecond⟩ := ih hrest
      exact ⟨link, epoch', .cons hrule hsealed hseals hfirst, hsecond⟩

theorem singleton {member : Member} {facts : SealedFacts}
    (hrule : ChainRule prev epoch member.openFacts) (hsealed : member.sealed = some facts)
    (hseals : seals member.openFacts facts = .ok ()) :
    SealedRun prev epoch [member] facts.link (some member.openFacts.epoch) :=
  .cons hrule hsealed hseals .nil

/-- What the last member of a run is like. -/
theorem of_concat (h : SealedRun prev epoch (members ++ [member]) link' epoch'') :
    ∃ link epoch' facts, SealedRun prev epoch members link epoch' ∧
      ChainRule link epoch' member.openFacts ∧ member.sealed = some facts ∧
      seals member.openFacts facts = .ok () ∧ link' = facts.link ∧
      epoch'' = some member.openFacts.epoch := by
  obtain ⟨link, epoch', hfirst, hlast⟩ := h.of_append
  cases hlast with
  | cons hrule hsealed hseals hrest =>
    cases hrest
    exact ⟨link, epoch', _, hfirst, hrule, hsealed, hseals, rfl, rfl⟩

section

variable (h : SealedRun prev epoch members link epoch')

include h

/-- Nothing is asked of the first epoch of a history. -/
theorem of_none :
    ∃ epoch'', SealedRun prev none members link epoch'' ∧ ∀ e ∈ epoch'', e ∈ epoch' := by
  cases h with
  | nil => exact ⟨none, .nil, by simp⟩
  | cons hrule hsealed hseals hrest =>
    exact ⟨epoch', .cons ⟨hrule.prev_eq, hrule.past, by simp, hrule.id⟩ hsealed hseals hrest,
      fun _ h => h⟩

/-- The link at the end of a run is that of its last member. -/
theorem last_link :
    (members.getLast?.bind (·.sealed)).elim prev (·.link) = link := by
  rcases eq_nil_or_concat members with rfl | ⟨init, last, rfl⟩
  · cases h
    rfl
  · rw [concat_eq_append] at h ⊢
    obtain ⟨_, _, facts, -, -, hsealed, -, rfl, -⟩ := h.of_concat
    simp [hsealed]

/-- The members of a run are sealed. -/
theorem isSome :
    ∀ member ∈ members, member.sealed.isSome := by
  induction h with
  | nil => simp
  | cons _ hsealed _ _ ih => exact forall_mem_cons.2 ⟨by simp [hsealed], ih⟩

/-- The epoch at the end of a run is that of one of its members. -/
theorem epoch_mem {e : ℕ} (he : e ∈ epoch') :
    e ∈ epoch ∨ ∃ member ∈ members, member.openFacts.epoch = e := by
  rcases eq_nil_or_concat members with rfl | ⟨init, last, rfl⟩
  · cases h
    exact .inl he
  · rw [concat_eq_append] at h ⊢
    obtain ⟨_, _, _, -, -, -, -, -, rfl⟩ := h.of_concat
    exact .inr ⟨last, by simp, Option.some.inj he⟩

/-- Each member names the link of the one before it. -/
theorem isChain {last : Member} (hlast : last.openFacts.prev = link) :
    (∀ m, (members ++ [last]).head? = some m → m.openFacts.prev = prev) ∧
      (members ++ [last]).IsChain fun m m' => m.sealed.map (·.link) = some m'.openFacts.prev := by
  induction h with
  | nil => exact ⟨by rintro m ⟨⟩; exact hlast, .singleton _⟩
  | cons hrule hsealed _ _ ih =>
    obtain ⟨hhead, hchain⟩ := ih hlast
    refine ⟨by rintro m ⟨⟩; exact hrule.prev_eq, isChain_cons.2 ⟨fun m hm => ?_, hchain⟩⟩
    rw [hsealed, Option.map_some, hhead m hm]

end

end SealedRun

/-! ## Chained ledgers -/

/-- The members are a run of sealed segments from the anchor on, and an open segment
    that follows it. -/
structure WalLedger.ChainedBy (ledger : WalLedger) (kept : List Member) (last : Member)
    (link : ChainLink) (epoch : Option ℕ) : Prop where
  members : ledger.members = kept ++ [last]
  run : SealedRun ledger.anchor none kept link epoch
  rule : ChainRule link epoch last.openFacts
  unsealed : last.sealed = none
  next : ledger.nextSegmentId = last.id + 1
  bound : last.id + 1 ≤ usizeMax

/-- The ledger is chained. -/
def WalLedger.Chained (ledger : WalLedger) : Prop :=
  ∃ kept last link epoch, ledger.ChainedBy kept last link epoch

theorem following_eq_ok {id next : SegmentId} :
    following id = .ok next ↔ id + 1 ≤ usizeMax ∧ next = id + 1 := by
  rw [following]
  split_ifs with h <;> simp [h, eq_comm]

variable {prev : ChainLink} {epoch : Option ℕ}

theorem opensAfter_eq_ok {facts : OpenFacts} {u : Unit} :
    opensAfter facts prev epoch = .ok u ↔ ChainRule prev epoch facts := by
  rw [← @follows_eq_ok prev epoch facts u, opensAfter]
  cases follows prev epoch facts <;> simp [Except.mapError]

/-- The segment that an edit opens. -/
def LedgerEdit.opens : LedgerEdit → Option SegmentId
  | .rotate _ facts | .reopen facts | .setAside _ _ facts | .rebase _ facts => some facts.id
  | _ => none

variable {taken : List Member} {cut : Option SealedFacts}

namespace WalLedger

variable {ledger ledger' : WalLedger} {edit : LedgerEdit}

/-! ## What an edit does -/

/-- What an accepted edit requires of the ledger, and what it makes of it. -/
inductive Accepts (ledger : WalLedger) : LedgerEdit → WalLedger → Prop
  | rotate {sealed : SealedFacts} {facts : OpenFacts} (hnext : facts.id = ledger.nextSegmentId)
      (hseals : seals ledger.openMember.openFacts sealed = .ok ())
      (hrule : ChainRule sealed.link (some ledger.openMember.openFacts.epoch) facts)
      (hbound : facts.id + 1 ≤ usizeMax) :
      Accepts ledger (.rotate sealed facts)
        { (ledger.setOpen { ledger.openMember with sealed := some sealed }).pushBack
            (.opened facts) with nextSegmentId := facts.id + 1 }
  | reopen {facts : OpenFacts} (hnext : facts.id = ledger.nextSegmentId)
      (hrule : ChainRule ledger.openMember.openFacts.prev
        (some ledger.openMember.openFacts.epoch) facts)
      (hbound : facts.id + 1 ≤ usizeMax) :
      Accepts ledger (.reopen facts)
        { ledger.setOpen (.opened facts) with nextSegmentId := facts.id + 1 }
  | advanceLogStart {below : SegmentId} (hstart : ledger.logStart < below)
      (hopen : below ≤ ledger.openSegment) :
      Accepts ledger (.advanceLogStart below) { ledger with
        members := ledger.members.drop (partitionPoint (·.id < below) ledger.members)
        anchor := ((ledger.members.take (partitionPoint (·.id < below) ledger.members)).getLast?.bind
          (·.sealed)).elim ledger.anchor (·.link)
        nonempty := retained_ne_nil hopen }
  | setAside {start : SegmentId} {cut : Option SealedFacts} {facts : OpenFacts} {prev : ChainLink}
      (hnext : ledger.nextSegmentId ≤ facts.id)
      (hprev : setAsidePrev ledger.anchor
        (ledger.members.take (partitionPoint (·.id < start) ledger.members)).getLast? cut = .ok prev)
      (hrule : ChainRule prev (some ledger.newestEpoch) facts)
      (hbound : facts.id + 1 ≤ usizeMax) :
      Accepts ledger (.setAside start cut facts) { ledger with
        members := cutLast
          (ledger.members.take (partitionPoint (·.id < start) ledger.members)) cut ++ [.opened facts]
        nextSegmentId := facts.id + 1
        nonempty := by simp }
  | rebase {anchor : ChainLink} {facts : OpenFacts} (hnext : ledger.nextSegmentId ≤ facts.id)
      (hrule : ChainRule anchor (some ledger.newestEpoch) facts)
      (hbound : facts.id + 1 ≤ usizeMax) :
      Accepts ledger (.rebase anchor facts) { ledger with
        members := [.opened facts]
        anchor
        nextSegmentId := facts.id + 1
        nonempty := by simp }
  | reserve {through : ℕ} (hthrough : ledger.seqReservedThrough < through) :
      Accepts ledger (.reserve through) { ledger with seqReservedThrough := through }
  | syncOpen {throughBytes : ℕ}
      (hbytes : ledger.openMember.durableBytes.getD segmentHeaderLen ≤ throughBytes) :
      Accepts ledger (.syncOpen ledger.openSegment throughBytes)
        (ledger.setOpen { ledger.openMember with durableBytes := some throughBytes })
  | salvageOpen {validBytes floor : ℕ} (hbytes : segmentHeaderLen ≤ validBytes) :
      Accepts ledger (.salvageOpen ledger.openSegment validBytes floor)
        { ledger.setOpen { ledger.openMember with
            durableBytes :=
              some (ledger.openMember.durableBytes.elim validBytes (min · validBytes)) } with
          seqReservedThrough := max ledger.seqReservedThrough floor }

theorem of_apply (h : apply edit ledger = .ok () ledger') : Accepts ledger edit ledger' := by
  cases edit <;>
    simp only [apply, rotate, reopen, advanceLogStart, setAside, rebase, reserve, syncOpen,
      salvageOpen, expectNext, get_bind_eq_ok, check_bind_eq_ok, modify_bind_eq_ok, modify_eq_ok,
      ensure_eq_ok, opensAfter_eq_ok, following_eq_ok] at h
  case rotate sealed facts =>
    obtain ⟨_, -, _, hnext, _, hseals, _, hrule, _, ⟨hbound, rfl⟩, rfl⟩ := h
    exact .rotate hnext hseals hrule hbound
  case reopen facts =>
    obtain ⟨_, hnext, _, hrule, _, ⟨hbound, rfl⟩, rfl⟩ := h
    exact .reopen hnext hrule hbound
  case advanceLogStart below =>
    split_ifs at h with hguard
    · cases h
      exact .advanceLogStart hguard.1 hguard.2
    · cases h
  case setAside start cut facts =>
    obtain ⟨_, hguard, prev, hprev, _, hrule, _, ⟨hbound, rfl⟩, rfl⟩ := h
    exact .setAside hguard.2 hprev hrule hbound
  case rebase anchor facts =>
    obtain ⟨_, hnext, _, hrule, _, ⟨hbound, rfl⟩, rfl⟩ := h
    exact .rebase hnext hrule hbound
  case reserve through =>
    obtain ⟨_, hthrough, rfl⟩ := h
    exact .reserve hthrough
  case syncOpen id throughBytes =>
    obtain ⟨_, ⟨rfl, hbytes⟩, rfl⟩ := h
    exact .syncOpen hbytes
  case salvageOpen id validBytes floor =>
    obtain ⟨_, ⟨rfl, hbytes⟩, rfl⟩ := h
    exact .salvageOpen hbytes

/-- A rejected edit leaves the ledger unchanged: all checks come before the first
    change. -/
theorem atomic_apply (edit : LedgerEdit) : Update.Atomic (apply edit) := by
  cases edit <;> refine atomic_get_bind fun ledger => ?_
  case advanceLogStart below =>
    intro s e s' h
    split_ifs at h
    · cases h
    · cases h
      rfl
  all_goals
    repeat with_reducible refine atomic_check_bind fun _ => ?_
    refine Total.atomic ?_
    repeat with_reducible refine total_modify_bind ?_
    exact total_modify _

/-! ## Every edit keeps the chain -/

section Chained

variable {kept : List Member} {last : Member} {link : ChainLink} {epoch : Option ℕ}

theorem ChainedBy.openMember (h : ledger.ChainedBy kept last link epoch) :
    ledger.openMember = last := by
  simp [WalLedger.openMember, h.members]

theorem Chained.openMember_sealed (h : ledger.Chained) : ledger.openMember.sealed = none := by
  obtain ⟨kept, last, link, epoch, h⟩ := h
  rw [h.openMember]
  exact h.unsealed

theorem ChainedBy.setOpen_members (h : ledger.ChainedBy kept last link epoch) (member : Member) :
    (ledger.setOpen member).members = kept ++ [member] := by
  simp [setOpen, h.members]

theorem epoch_le_newestEpoch (h : member ∈ ledger.members) :
    member.openFacts.epoch ≤ ledger.newestEpoch := by
  rw [newestEpoch]
  have hmem := mem_map_of_mem (f := fun m : Member => m.openFacts.epoch) h
  cases hmax : (ledger.members.map (·.openFacts.epoch)).max? with
  | none =>
    rw [max?_eq_none_iff.1 hmax] at hmem
    simp at hmem
  | some e => exact (max?_eq_some_iff.1 hmax).2 _ hmem

theorem openEpoch_le_newestEpoch : ledger.openMember.openFacts.epoch ≤ ledger.newestEpoch :=
  epoch_le_newestEpoch (getLast_mem _)

/-- What comes before a member is a run of sealed segments, and the member follows it. -/
theorem ChainedBy.of_prefix (h : ledger.ChainedBy kept last link epoch) {init rest : List Member}
    (hsplit : ledger.members = init ++ member :: rest) :
    ∃ link' epoch', SealedRun ledger.anchor none init link' epoch' ∧
      ChainRule link' epoch' member.openFacts := by
  rw [h.members] at hsplit
  rcases eq_nil_or_concat rest with rfl | ⟨rest', last', rfl⟩
  · obtain ⟨rfl, hlast⟩ := append_inj' hsplit rfl
    cases hlast
    exact ⟨link, epoch, h.run, h.rule⟩
  · rw [concat_eq_append, ← cons_append, ← append_assoc] at hsplit
    obtain ⟨rfl, -⟩ := append_inj' hsplit rfl
    obtain ⟨link', epoch', hinit, hrest⟩ := h.run.of_append
    cases hrest with
    | cons hrule _ _ _ => exact ⟨link', epoch', hinit, hrule⟩

/-- A new open member that follows a run of members of the ledger. -/
theorem chainedBy_opened {epoch' : Option ℕ} {facts : OpenFacts}
    (hrun : SealedRun ledger'.anchor none kept prev epoch')
    (hrule : ChainRule prev (some ledger.newestEpoch) facts)
    (hmem : ∀ member ∈ kept, ∃ member' ∈ ledger.members,
      member'.openFacts.epoch = member.openFacts.epoch)
    (hmembers : ledger'.members = kept ++ [.opened facts])
    (hnext : ledger'.nextSegmentId = facts.id + 1) (hbound : facts.id + 1 ≤ usizeMax) :
    ledger'.ChainedBy kept (.opened facts) prev epoch' := by
  refine ⟨hmembers, hrun, hrule.of_epoch fun e he => ?_, rfl, hnext, hbound⟩
  rcases hrun.epoch_mem he with hnone | ⟨member, hmember, rfl⟩
  · cases hnone
  · obtain ⟨member', hmember', heq⟩ := hmem member hmember
    exact heq ▸ epoch_le_newestEpoch hmember'

theorem takeWhile_concat_of_neg {α : Type*} {p : α → Bool} {l : List α} {a : α} (ha : p a = false) :
    (l ++ [a]).takeWhile p = l.takeWhile p := by
  induction l with
  | nil => simp [ha]
  | cons b l ih =>
    cases hb : p b <;> simp [hb, ih]

theorem dropWhile_concat_of_neg {α : Type*} {p : α → Bool} {l : List α} {a : α} (ha : p a = false) :
    (l ++ [a]).dropWhile p = l.dropWhile p ++ [a] := by
  induction l with
  | nil => simp [ha]
  | cons b l ih =>
    cases hb : p b <;> simp [hb, ih]

/-- Retiring members cuts the run at its start. -/
theorem ChainedBy.advanceLogStart (h : ledger.ChainedBy kept last link epoch) {below : SegmentId}
    (hopen : below ≤ ledger.openSegment) :
    ∃ epoch', ChainedBy { ledger with
      members := ledger.members.drop (partitionPoint (·.id < below) ledger.members)
      anchor := ((ledger.members.take (partitionPoint (·.id < below) ledger.members)).getLast?.bind
        (·.sealed)).elim ledger.anchor (·.link)
      nonempty := retained_ne_nil hopen } (kept.dropWhile (·.id < below)) last link epoch' := by
  have hlast : decide (last.id < below) = false := by
    rw [openSegment, h.openMember] at hopen
    simpa using hopen
  have hrun := h.run
  rw [← takeWhile_append_dropWhile (p := fun m => decide (m.id < below)) (l := kept)] at hrun
  obtain ⟨link', epoch', hretired, hrest⟩ := hrun.of_append
  obtain ⟨epoch'', hrest, hepoch⟩ := hrest.of_none
  refine ⟨epoch'', ?_, ?_, ?_, h.unsealed, h.next, h.bound⟩
  · simp only [drop_partitionPoint, h.members]
    exact dropWhile_concat_of_neg hlast
  · simp only [take_partitionPoint, h.members]
    rw [@takeWhile_concat_of_neg _ (fun m => decide (m.id < below)) kept last hlast,
      hretired.last_link]
    exact hrest
  · exact ⟨h.rule.prev_eq, h.rule.past, fun e he => h.rule.epoch e (hepoch e he), h.rule.id⟩

/-- Setting members aside cuts the run at its end. -/
theorem ChainedBy.setAside (h : ledger.ChainedBy kept last link epoch) {taken rest : List Member}
    (hsplit : ledger.members = taken ++ rest) {cut : Option SealedFacts} {prev : ChainLink}
    (hprev : setAsidePrev ledger.anchor taken.getLast? cut = .ok prev) :
    ∃ epoch', SealedRun ledger.anchor none (cutLast taken cut) prev epoch' := by
  rcases eq_nil_or_concat taken with rfl | ⟨init, member, rfl⟩
  · cases cut with
    | none =>
      cases hprev
      exact ⟨none, .nil⟩
    | some cut => cases hprev
  · rw [concat_eq_append] at hsplit hprev ⊢
    rw [getLast?_append, getLast?_singleton, Option.some_or] at hprev
    rw [append_assoc, singleton_append] at hsplit
    obtain ⟨link', epoch', hinit, hrule⟩ := h.of_prefix hsplit
    cases cut with
    | none =>
      -- Only the last member of the ledger is unsealed, and it is not kept uncut.
      simp only [setAsidePrev] at hprev
      split at hprev
      next facts hsealed =>
        cases hprev
        rcases eq_nil_or_concat rest with rfl | ⟨rest', last', rfl⟩
        · rw [h.members] at hsplit
          cases (append_inj' hsplit rfl).2
          rw [h.unsealed] at hsealed
          cases hsealed
        · rw [h.members, concat_eq_append, ← cons_append, ← append_assoc] at hsplit
          obtain ⟨rfl, -⟩ := append_inj' hsplit rfl
          have hrun := h.run
          rw [← singleton_append, ← append_assoc] at hrun
          obtain ⟨link'', epoch'', htaken, -⟩ := hrun.of_append
          refine ⟨epoch'', ?_⟩
          obtain ⟨_, _, facts', -, -, hsealed', -, rfl, rfl⟩ := htaken.of_concat
          rw [hsealed] at hsealed'
          cases hsealed'
          exact htaken
      next => cases hprev
    | some cut =>
      simp only [setAsidePrev, except_bind_eq_ok] at hprev
      obtain ⟨_, -, _, hseals, hprev⟩ := hprev
      cases hprev
      refine ⟨some member.openFacts.epoch, ?_⟩
      rw [cutLast, modifyLast_concat]
      exact hinit.append (@SealedRun.singleton _ _ (member.reseal cut) _ hrule rfl hseals)

/-- A member is kept as it is, or cut. -/
theorem forall_mem_cutLast {P : Member → Prop} (h : ∀ member ∈ taken, P member)
    (hcut : ∀ facts ∈ cut, ∀ member ∈ taken, P (member.reseal facts)) :
    ∀ member ∈ cutLast taken cut, P member := by
  cases cut with
  | none => exact h
  | some cut =>
    rcases eq_nil_or_concat taken with rfl | ⟨init, last, rfl⟩
    · exact fun member hmember => absurd hmember not_mem_nil
    · rw [concat_eq_append] at h hcut ⊢
      rw [cutLast, modifyLast_concat]
      exact forall_mem_append.2 ⟨(forall_mem_append.1 h).1,
        forall_mem_singleton.2 (hcut cut rfl last (by simp))⟩

end Chained

/-- Every accepted edit leaves a chained ledger. -/
theorem Chained.of_accepts (h : ledger.Chained) (haccepts : Accepts ledger edit ledger') :
    ledger'.Chained := by
  obtain ⟨kept, last, link, epoch, h⟩ := h
  cases haccepts with
  | @rotate sealed facts hnext hseals hrule hbound =>
    rw [h.openMember] at hseals hrule
    refine ⟨kept ++ [{ last with sealed := some sealed }], .opened facts, sealed.link,
      some last.openFacts.epoch, ?_, ?_, hrule, rfl, rfl, hbound⟩
    · simp only [pushBack, h.setOpen_members, h.openMember]
    · exact h.run.append
        (@SealedRun.singleton _ _ { last with sealed := some sealed } _ h.rule rfl hseals)
  | @reopen facts hnext hrule hbound =>
    rw [h.openMember, h.rule.prev_eq] at hrule
    exact ⟨kept, .opened facts, link, epoch, h.setOpen_members _, h.run,
      hrule.of_epoch h.rule.epoch, rfl, rfl, hbound⟩
  | advanceLogStart hstart hopen =>
    obtain ⟨epoch', h'⟩ := h.advanceLogStart hopen
    exact ⟨_, _, _, epoch', h'⟩
  | @setAside start cut facts prev hnext hprev hrule hbound =>
    have hsplit := take_append_drop (partitionPoint (·.id < start) ledger.members) ledger.members
    obtain ⟨epoch', hrun⟩ := h.setAside hsplit.symm hprev
    exact ⟨_, _, prev, epoch', chainedBy_opened hrun hrule (forall_mem_cutLast
      (fun member hmember => ⟨member, mem_of_mem_take hmember, rfl⟩)
      fun _ _ member hmember => ⟨member, mem_of_mem_take hmember, rfl⟩) rfl rfl hbound⟩
  | @rebase anchor facts hnext hrule hbound =>
    exact ⟨[], _, anchor, none, chainedBy_opened .nil hrule (by simp) rfl rfl hbound⟩
  | reserve hthrough => exact ⟨kept, last, link, epoch, { h with }⟩
  | syncOpen hbytes | salvageOpen hbytes =>
    refine ⟨kept, _, link, epoch, h.setOpen_members _, h.run, ?_, ?_, ?_, ?_⟩ <;>
      simp only [h.openMember, setOpen, Member.id]
    exacts [h.rule, h.unsealed, h.next, h.bound]

/-! ## Ids, epochs and reservations -/

/-- An edit opens an id that has never been opened. -/
theorem Accepts.opens (h : Accepts ledger edit ledger') :
    (∀ id ∈ edit.opens, ledger.nextSegmentId ≤ id ∧ ledger'.nextSegmentId = id + 1) ∧
      ledger.nextSegmentId ≤ ledger'.nextSegmentId := by
  cases h with
  | rotate hnext | reopen hnext =>
    refine ⟨?_, hnext ▸ Nat.le_succ _⟩
    rintro _ ⟨⟩
    exact ⟨hnext.ge, rfl⟩
  | setAside hnext | rebase hnext =>
    refine ⟨?_, hnext.trans (Nat.le_succ _)⟩
    rintro _ ⟨⟩
    exact ⟨hnext, rfl⟩
  | advanceLogStart | reserve | syncOpen | salvageOpen =>
    exact ⟨fun _ h => absurd h (by simp [LedgerEdit.opens]), le_rfl⟩

theorem Accepts.reserved_le (h : Accepts ledger edit ledger') :
    ledger.seqReservedThrough ≤ ledger'.seqReservedThrough := by
  cases h with
  | reserve hthrough => exact hthrough.le
  | salvageOpen => exact le_max_left _ _
  | _ => exact le_rfl

theorem Accepts.epoch_le (h : Accepts ledger edit ledger') :
    ledger.openMember.openFacts.epoch ≤ ledger'.openMember.openFacts.epoch := by
  cases h with
  | rotate _ _ hrule =>
    simpa [openMember, pushBack, Member.opened] using hrule.epoch _ rfl
  | reopen _ hrule =>
    simpa [openMember, setOpen, Member.opened] using hrule.epoch _ rfl
  | setAside _ _ hrule | rebase _ hrule =>
    refine openEpoch_le_newestEpoch.trans ?_
    simpa [openMember, Member.opened] using hrule.epoch _ rfl
  | advanceLogStart _ hopen => simp [openMember, getLast_drop]
  | reserve => exact le_rfl
  | syncOpen | salvageOpen => simp [openMember, setOpen]

/-! ## Histories -/

/-- The ledger after some edits have been tried, whether they are accepted or not. -/
def tryAll (ledger : WalLedger) (edits : List LedgerEdit) : WalLedger :=
  Update.runAll apply ledger edits

/-- The segments opened on the way. -/
def openedIds (ledger : WalLedger) (edits : List LedgerEdit) : List SegmentId :=
  (Update.accepted apply ledger edits).filterMap LedgerEdit.opens

theorem tryAll_induct {P : WalLedger → Prop} (hs : P ledger)
    (hstep : ∀ ledger edit ledger', P ledger → Accepts ledger edit ledger' → P ledger')
    (edits : List LedgerEdit) : P (ledger.tryAll edits) :=
  runAll_induct atomic_apply hs (fun s b s' h hb => hstep s b s' h (of_apply hb)) edits

theorem of_genesis {holder : HolderId} {anchor : ChainLink} {facts : OpenFacts}
    (h : genesis holder anchor facts = .ok ledger) :
    ChainRule anchor none facts ∧ facts.id + 1 ≤ usizeMax ∧ ledger = {
      holder
      anchor
      members := [.opened facts]
      nextSegmentId := facts.id + 1
      seqReservedThrough := 0
      nonempty := by simp } := by
  simp only [genesis, except_bind_eq_ok, opensAfter_eq_ok, following_eq_ok] at h
  obtain ⟨_, hrule, _, ⟨hbound, rfl⟩, h⟩ := h
  cases h
  exact ⟨hrule, hbound, rfl⟩

theorem chained_genesis {holder : HolderId} {anchor : ChainLink} {facts : OpenFacts}
    (h : genesis holder anchor facts = .ok ledger) : ledger.Chained := by
  obtain ⟨hrule, hbound, rfl⟩ := of_genesis h
  exact ⟨[], .opened facts, anchor, none, rfl, .nil, hrule, rfl, rfl, hbound⟩

/-- Every ledger reached from genesis is chained. -/
theorem chained_tryAll {holder : HolderId} {anchor : ChainLink} {facts : OpenFacts}
    (h : genesis holder anchor facts = .ok ledger) (edits : List LedgerEdit) :
    (ledger.tryAll edits).Chained :=
  tryAll_induct (chained_genesis h) (fun _ _ _ hc ha => hc.of_accepts ha) edits

/-- The ids opened increase from the next id on. -/
theorem openedIds_sorted (ledger : WalLedger) (edits : List LedgerEdit) :
    (ledger.openedIds edits).Pairwise (· < ·) ∧
      ∀ id ∈ ledger.openedIds edits, ledger.nextSegmentId ≤ id := by
  induction edits generalizing ledger with
  | nil => exact ⟨.nil, by simp [openedIds, accepted]⟩
  | cons edit edits ih =>
    cases hedit : apply edit ledger with
    | error e ledger' =>
      have heq : ledger.openedIds (edit :: edits) = ledger'.openedIds edits := by
        simp only [openedIds, accepted, hedit]
      rw [heq, ← atomic_apply edit ledger e ledger' hedit]
      exact ih ledger'
    | ok u ledger' =>
      obtain ⟨hsorted, hle⟩ := ih ledger'
      obtain ⟨hopens, hnext⟩ := (of_apply hedit).opens
      cases hid : edit.opens with
      | none =>
        have heq : ledger.openedIds (edit :: edits) = ledger'.openedIds edits := by
          simp only [openedIds, accepted, hedit, filterMap_cons, hid]
        rw [heq]
        exact ⟨hsorted, fun id h => hnext.trans (hle id h)⟩
      | some id =>
        have heq : ledger.openedIds (edit :: edits) = id :: ledger'.openedIds edits := by
          simp only [openedIds, accepted, hedit, filterMap_cons, hid]
        obtain ⟨hid, hid'⟩ := hopens id hid
        rw [heq]
        refine ⟨pairwise_cons.2 ⟨fun id' h => ?_, hsorted⟩, fun id' h => ?_⟩
        · exact Nat.lt_of_succ_le (hid'.ge.trans (hle id' h))
        · rcases mem_cons.1 h with rfl | h
          exacts [hid, hnext.trans (hle id' h)]

theorem le_tryAll (ledger : WalLedger) (edits : List LedgerEdit) :
    ledger.nextSegmentId ≤ (ledger.tryAll edits).nextSegmentId ∧
      ledger.openMember.openFacts.epoch ≤ (ledger.tryAll edits).openMember.openFacts.epoch ∧
      ledger.seqReservedThrough ≤ (ledger.tryAll edits).seqReservedThrough := by
  refine tryAll_induct (P := fun l => ledger.nextSegmentId ≤ l.nextSegmentId ∧
    ledger.openMember.openFacts.epoch ≤ l.openMember.openFacts.epoch ∧
    ledger.seqReservedThrough ≤ l.seqReservedThrough) ⟨le_rfl, le_rfl, le_rfl⟩ ?_ edits
  rintro l edit l' ⟨hnext, hepoch, hreserved⟩ h
  exact ⟨hnext.trans h.opens.2, hepoch.trans h.epoch_le, hreserved.trans h.reserved_le⟩

/-- The history of a ledger: a rejected edit changes nothing; the ids of the segments
    opened increase; the next id, the open epoch and the reservation never decrease;
    and each member names the link of the one before it, the first one the anchor. -/
theorem history_of_genesis (holder : HolderId) (anchor : ChainLink) (facts : OpenFacts)
    (ledger : WalLedger) (hgenesis : genesis holder anchor facts = .ok ledger)
    (edits more : List LedgerEdit) :
    (∀ edit e ledger', apply edit (ledger.tryAll edits) = .error e ledger' →
      ledger' = ledger.tryAll edits) ∧
    (facts.id :: ledger.openedIds edits).Pairwise (· < ·) ∧
    ((ledger.tryAll edits).nextSegmentId ≤ (ledger.tryAll (edits ++ more)).nextSegmentId ∧
      (ledger.tryAll edits).openMember.openFacts.epoch ≤
        (ledger.tryAll (edits ++ more)).openMember.openFacts.epoch ∧
      (ledger.tryAll edits).seqReservedThrough ≤
        (ledger.tryAll (edits ++ more)).seqReservedThrough) ∧
    (∀ member, (ledger.tryAll edits).members.head? = some member →
      member.openFacts.prev = (ledger.tryAll edits).anchor) ∧
    (ledger.tryAll edits).members.IsChain fun member member' =>
      member.sealed.map (·.link) = some member'.openFacts.prev := by
  refine ⟨fun edit e ledger' h => atomic_apply edit _ e ledger' h, ?_, ?_, ?_⟩
  · obtain ⟨-, -, rfl⟩ := of_genesis hgenesis
    obtain ⟨hsorted, hle⟩ := openedIds_sorted _ edits
    exact pairwise_cons.2 ⟨fun id h => Nat.lt_of_succ_le (hle id h), hsorted⟩
  · rw [tryAll, tryAll, runAll_append]
    exact le_tryAll _ more
  · obtain ⟨kept, last, link, epoch, h⟩ := chained_tryAll hgenesis edits
    rw [h.members]
    exact h.run.isChain h.rule.prev_eq

end WalLedger

/-! ## Reading an image back -/

/-- The image of the ledger is accepted, and gives the ledger back. -/
def WalLedger.Loads (ledger : WalLedger) : Prop := ledger.image.tryFrom = .ok ledger

/-- A rotation seals all the bytes that have been synced, and a cut does not end
    within the header. -/
def LedgerEdit.Measured (ledger : WalLedger) : LedgerEdit → Prop
  | .rotate sealed _ => ∀ bytes ∈ ledger.openMember.durableBytes, bytes ≤ sealed.dataLen
  | .setAside _ cut _ => ∀ facts ∈ cut, segmentHeaderLen ≤ facts.dataLen
  | _ => True

namespace WalLedger

variable {ledger ledger' : WalLedger} {edit : LedgerEdit}

theorem checkChain_cons {members : List Member} (hrule : ChainRule prev epoch member.openFacts)
    (hseals : ∀ facts, member.sealed = some facts → seals member.openFacts facts = .ok ()) :
    checkChain prev epoch (member :: members) = .ok () ↔ member.boundaryValid ∧
      checkChain (member.sealed.elim prev (·.link)) (some member.openFacts.epoch) members =
        .ok () := by
  simp only [checkChain, except_bind_eq_ok, ensure_eq_ok, mapError_eq_ok, opensAfter_eq_ok]
  cases hsealed : member.sealed with
  | none => simp [hrule]
  | some facts =>
    simp only [except_bind_eq_ok, mapError_eq_ok, hseals facts hsealed]
    simp [hrule]

/-- The members of a chained ledger pass when their boundaries do. -/
theorem checkChain_run {link : ChainLink} {epoch' : Option ℕ} {members : List Member}
    {last : Member} (h : SealedRun prev epoch members link epoch')
    (hrule : ChainRule link epoch' last.openFacts) (hunsealed : last.sealed = none) :
    checkChain prev epoch (members ++ [last]) = .ok () ↔
      ∀ member ∈ members ++ [last], member.boundaryValid := by
  induction h with
  | nil =>
    rw [nil_append, checkChain_cons hrule (by simp [hunsealed])]
    simp [checkChain]
  | cons hrule' hsealed hseals _ ih =>
    rw [cons_append, checkChain_cons hrule' (by simp [hsealed, hseals]), hsealed,
      Option.elim_some, ih hrule, forall_mem_cons]

/-- The image of a chained ledger is read back when the boundaries of its members are
    within their segments. -/
theorem Chained.loads_iff (h : ledger.Chained) :
    ledger.Loads ↔ ∀ member ∈ ledger.members, member.boundaryValid := by
  obtain ⟨kept, last, link, epoch, h⟩ := h
  have hlast : ledger.members.getLast ledger.nonempty = last := h.openMember
  have hcheck : checkChain ledger.anchor none ledger.members = .ok () ↔
      ∀ member ∈ ledger.members, member.boundaryValid := by
    rw [h.members]
    exact checkChain_run h.run h.rule h.unsealed
  rw [Loads, LedgerImage.tryFrom, dif_neg (show ledger.image.members ≠ [] from ledger.nonempty)]
  simp only [image, hlast, except_bind_eq_ok, ensure_eq_ok]
  constructor
  · rintro ⟨_, -, _, -, _, hvalid, -⟩
    exact hcheck.1 hvalid
  · intro hvalid
    refine ⟨(), ⟨by simp [h.unsealed], ?_⟩, (), ⟨h.bound, h.next.symm⟩, (), hcheck.2 hvalid, rfl⟩
    rw [h.members, dropLast_concat, all_eq_true]
    exact h.run.isSome

/-- The boundaries of all members are recorded. -/
def Recorded (ledger : WalLedger) : Prop := ∀ member ∈ ledger.members, member.durableBytes.isSome

theorem boundaryValid_opened (facts : OpenFacts) : (Member.opened facts).boundaryValid := by
  simp [Member.opened, Member.boundaryValid]

theorem mem_setOpen {member' : Member} :
    member' ∈ (ledger.setOpen member).members ↔
      member' ∈ ledger.members.dropLast ∨ member' = member := by
  simp [setOpen]

theorem forall_mem_setOpen {P : Member → Prop} (h : ∀ member ∈ ledger.members, P member)
    (hmember : P member) : ∀ member' ∈ (ledger.setOpen member).members, P member' :=
  forall_mem_append.2 ⟨fun member' hmember' => h member' (dropLast_subset _ hmember'),
    forall_mem_singleton.2 hmember⟩

/-- A cut that does not end within the header leaves boundaries within the segments. -/
theorem cutLast_valid (hvalid : ∀ member ∈ taken, member.boundaryValid)
    (hcut : ∀ facts ∈ cut, segmentHeaderLen ≤ facts.dataLen) :
    ∀ member ∈ cutLast taken cut, member.boundaryValid := by
  refine forall_mem_cutLast hvalid fun facts hfacts member hmember => ?_
  have hmember := hvalid member hmember
  simp only [Member.boundaryValid, Member.reseal] at hmember ⊢
  cases hbytes : member.durableBytes with
  | none => rfl
  | some bytes =>
    simp only [hbytes, Option.all_some, Bool.and_eq_true, decide_eq_true_eq] at hmember
    simp [hmember.1, hcut facts hfacts]

/-- Only such a cut does, when the boundary of the member is recorded. -/
theorem of_cutLast_valid {cut : SealedFacts} (hne : taken ≠ [])
    (hrecorded : ∀ member ∈ taken, member.durableBytes.isSome)
    (hvalid : ∀ member ∈ cutLast taken (some cut), member.boundaryValid) :
    segmentHeaderLen ≤ cut.dataLen := by
  obtain ⟨init, last, rfl⟩ : ∃ init last, taken = init ++ [last] := by
    simpa using (eq_nil_or_concat taken).resolve_left hne
  obtain ⟨bytes, hbytes⟩ := Option.isSome_iff_exists.1 (hrecorded last (by simp))
  rw [cutLast, modifyLast_concat] at hvalid
  have hlast := hvalid (last.reseal cut) (by simp)
  simp only [Member.boundaryValid, Member.reseal, hbytes, Option.map_some, Option.all_some,
    Bool.and_eq_true, decide_eq_true_eq] at hlast
  exact hlast.1.trans (min_le_right _ _)

theorem Recorded.of_accepts (h : ledger.Recorded) (haccepts : Accepts ledger edit ledger') :
    ledger'.Recorded := by
  have hopen := h _ (getLast_mem ledger.nonempty)
  cases haccepts with
  | rotate =>
    exact forall_mem_append.2 ⟨forall_mem_setOpen h hopen, forall_mem_singleton.2 rfl⟩
  | reopen | syncOpen | salvageOpen => exact forall_mem_setOpen h rfl
  | advanceLogStart => exact fun member hmember => h member (mem_of_mem_drop hmember)
  | setAside =>
    refine forall_mem_append.2 ⟨forall_mem_cutLast (fun m hm => h m (mem_of_mem_take hm))
      fun facts _ m hm => ?_, forall_mem_singleton.2 rfl⟩
    simpa [Member.reseal] using h m (mem_of_mem_take hm)
  | rebase => exact forall_mem_singleton.2 rfl
  | reserve => exact h

/-- An edit that measures keeps the boundaries within the segments. -/
theorem boundaries_of_measured (hunsealed : ledger.openMember.sealed = none)
    (hvalid : ∀ member ∈ ledger.members, member.boundaryValid)
    (haccepts : Accepts ledger edit ledger') (hmeasured : edit.Measured ledger) :
    ∀ member ∈ ledger'.members, member.boundaryValid := by
  have hopen : ∀ bytes ∈ ledger.openMember.durableBytes, segmentHeaderLen ≤ bytes := by
    intro bytes hbytes
    have := hvalid _ (getLast_mem ledger.nonempty)
    rw [Member.boundaryValid, show (ledger.members.getLast ledger.nonempty).durableBytes =
      some bytes from hbytes] at this
    simp only [Option.all_some, Bool.and_eq_true, decide_eq_true_eq] at this
    exact this.1
  have hopened : ∀ facts, ∀ member ∈ [Member.opened facts], member.boundaryValid :=
    fun facts => forall_mem_singleton.2 (boundaryValid_opened facts)
  cases haccepts with
  | rotate =>
    refine forall_mem_append.2 ⟨forall_mem_setOpen hvalid ?_, hopened _⟩
    rw [Member.boundaryValid]
    cases hbytes : ledger.openMember.durableBytes with
    | none => rfl
    | some bytes => simpa using ⟨hopen bytes hbytes, hmeasured bytes hbytes⟩
  | @reopen facts => exact forall_mem_setOpen hvalid (boundaryValid_opened facts)
  | advanceLogStart => exact fun member hmember => hvalid member (mem_of_mem_drop hmember)
  | setAside =>
    exact forall_mem_append.2
      ⟨cutLast_valid (fun m hm => hvalid m (mem_of_mem_take hm)) hmeasured, hopened _⟩
  | rebase => exact hopened _
  | reserve => exact hvalid
  | syncOpen hthrough =>
    refine forall_mem_setOpen hvalid ?_
    cases hbytes : ledger.openMember.durableBytes with
    | none => simpa [Member.boundaryValid, hunsealed, hbytes] using hthrough
    | some bytes =>
      rw [hbytes] at hthrough
      simpa [Member.boundaryValid, hunsealed] using (hopen bytes hbytes).trans hthrough
  | salvageOpen hvalidBytes =>
    refine forall_mem_setOpen hvalid ?_
    cases hbytes : ledger.openMember.durableBytes with
    | none => simpa [Member.boundaryValid, hunsealed] using hvalidBytes
    | some bytes =>
      simpa [Member.boundaryValid, hunsealed] using ⟨hopen bytes hbytes, hvalidBytes⟩

/-- Only such an edit does, when the boundaries are recorded. -/
theorem measured_of_boundaries (hrecorded : ledger.Recorded)
    (haccepts : Accepts ledger edit ledger')
    (hvalid : ∀ member ∈ ledger'.members, member.boundaryValid) : edit.Measured ledger := by
  cases haccepts with
  | @rotate sealed facts =>
    intro bytes hbytes
    have hsealed := hvalid { ledger.openMember with sealed := some sealed }
      (mem_append_left _ (mem_setOpen.2 (.inr rfl)))
    rw [Member.boundaryValid, show ledger.openMember.durableBytes = some bytes from hbytes] at hsealed
    simp only [Option.all_some, Bool.and_eq_true, decide_eq_true_eq] at hsealed
    exact hsealed.2
  | @setAside start cut facts prev _ hprev =>
    rintro cut ⟨⟩
    refine of_cutLast_valid ?_ (fun m hm => hrecorded m (mem_of_mem_take hm))
      fun m hm => hvalid m (mem_append_left _ hm)
    intro hnil
    rw [hnil] at hprev
    cases hprev
  | _ => trivial

/-- From genesis on, the ledger can be read back at every moment when all edits
    accepted on the way have measured, and only then. -/
theorem loads_iff_measured (holder : HolderId) (anchor : ChainLink) (facts : OpenFacts)
    (ledger : WalLedger) (hgenesis : genesis holder anchor facts = .ok ledger)
    (edits : List LedgerEdit) :
    (∀ before, before <+: edits → (ledger.tryAll before).Loads) ↔
      ∀ before edit ledger', before ++ [edit] <+: edits →
        apply edit (ledger.tryAll before) = .ok () ledger' →
        edit.Measured (ledger.tryAll before) := by
  have hchained := fun edits => chained_tryAll hgenesis edits
  have hrecorded : ∀ edits, (ledger.tryAll edits).Recorded := by
    refine tryAll_induct ?_ fun _ _ _ hr ha => hr.of_accepts ha
    obtain ⟨-, -, rfl⟩ := of_genesis hgenesis
    exact forall_mem_singleton.2 rfl
  have hstep : ∀ before edit, (ledger.tryAll before).Loads →
      ((ledger.tryAll (before ++ [edit])).Loads ↔ ∀ ledger',
        apply edit (ledger.tryAll before) = .ok () ledger' →
          edit.Measured (ledger.tryAll before)) := by
    intro before edit hloads
    have hafter : ledger.tryAll (before ++ [edit]) = (apply edit).after (ledger.tryAll before) :=
      runAll_append ledger before [edit]
    cases hedit : apply edit (ledger.tryAll before) with
    | error e ledger' =>
      rw [hafter, (atomic_apply edit).after_of_error hedit]
      exact iff_of_true hloads nofun
    | ok u ledger' =>
      have heq := hafter.trans (after_of_ok hedit)
      rw [(hchained _).loads_iff, heq]
      refine ⟨fun h _ _ => measured_of_boundaries (hrecorded before) (of_apply hedit) h,
        fun h => ?_⟩
      exact boundaries_of_measured (hchained before).openMember_sealed
        ((hchained before).loads_iff.1 hloads) (of_apply hedit) (h ledger' rfl)
  constructor
  · intro hloads before edit ledger' hprefix haccepted
    refine (hstep before edit (hloads before ?_)).1 (hloads _ hprefix) ledger' haccepted
    exact (prefix_append _ _).trans hprefix
  · intro hmeasured before
    induction before using reverseRecOn with
    | nil =>
      intro _
      refine (hchained []).loads_iff.2 ?_
      obtain ⟨-, -, rfl⟩ := of_genesis hgenesis
      exact forall_mem_singleton.2 (boundaryValid_opened facts)
    | append_singleton before edit ih =>
      intro hprefix
      refine (hstep before edit (ih ((prefix_append _ _).trans hprefix))).2 ?_
      exact fun ledger' haccepted => hmeasured before edit ledger' hprefix haccepted

end WalLedger

/-! ## The first rotation of a ledger -/

def firstFacts : OpenFacts := ⟨1, 1, 1, .genesis⟩

def firstLedger : WalLedger where
  holder := .replicate 16 (byte 1)
  anchor := .genesis
  members := [.opened firstFacts]
  nextSegmentId := 2
  seqReservedThrough := 0
  nonempty := by simp

/-- Sealing the first segment, without records, at `dataLen`. -/
def firstRotation (dataLen : ℕ) : LedgerEdit :=
  .rotate ⟨⟨1, 0, .replicate 16 (byte 0)⟩, 0, dataLen, []⟩ ⟨2, 1, 1, ⟨1, 0, .replicate 16 (byte 0)⟩⟩

theorem history_of_genesis_rotation :
    WalLedger.genesis (.replicate 16 (byte 1)) .genesis firstFacts = .ok firstLedger ∧
      firstLedger.openedIds [.reserve 0, firstRotation 128] = [2] ∧
      (1 :: firstLedger.openedIds [.reserve 0, firstRotation 128]).Pairwise (· < ·) :=
  ⟨rfl, rfl, (history_of_genesis (.replicate 16 (byte 1)) .genesis firstFacts firstLedger rfl _
    []).2.1⟩

/-- A rotation that seals fewer bytes than have been synced is accepted, and the image
    of the ledger is not. -/
theorem rotation_not_measured : ∃ ledger ledger' : WalLedger,
    WalLedger.genesis (.replicate 16 (byte 1)) .genesis firstFacts = .ok firstLedger ∧
      WalLedger.apply (.syncOpen 1 500) firstLedger = .ok () ledger ∧
      WalLedger.apply (firstRotation 128) ledger = .ok () ledger' ∧
      ledger'.image.tryFrom =
        .error (.unreachableState "invalid durable WAL byte boundary") :=
  ⟨_, _, rfl, rfl, rfl, rfl⟩

theorem loads_iff_measured_rotation :
    WalLedger.genesis (.replicate 16 (byte 1)) .genesis firstFacts = .ok firstLedger ∧
      (firstLedger.tryAll [.syncOpen 1 500, firstRotation 600]).Loads := by
  refine ⟨rfl, (loads_iff_measured (.replicate 16 (byte 1)) .genesis firstFacts firstLedger rfl
    [.syncOpen 1 500, firstRotation 600]).2 (fun before edit ledger' hprefix _ => ?_) _
    (prefix_refl _)⟩
  obtain ⟨rest, hrest⟩ := hprefix
  cases before with
  | nil =>
    cases hrest
    trivial
  | cons first before =>
    cases before with
    | nil =>
      cases hrest
      rintro bytes ⟨⟩
      decide
    | cons second before => simp at hrest

end Midge
