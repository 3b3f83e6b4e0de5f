import Midge.Wal.Publish

/-!
# What the writers of a catalog preserve

Whatever operations writers of any epochs issue on a catalog, it stays valid, and its
epoch, its next id, its floor and its retirement marker only rise. The entries of a valid
catalog are linked from its anchor (`EntriesValid`): each operation keeps a piece of them,
and an append adds entries that are linked from the head.
-/

namespace Midge

open List Update

/-! ## Valid catalogs -/

variable {run added : List CatalogEntry} {epoch : ℕ} {head : ChainLink}

namespace WalPublicationCatalog

/-- What `checkEntries` checks. -/
def EntriesValid (fencingEpoch : ℕ) : ChainLink → ℕ → List CatalogEntry → Prop
  | _, _, [] => True
  | prev, epoch, entry :: entries =>
    entry.prev = prev ∧ (prev.id < entry.id ∧ prev.lastSeq < entry.maxSequence) ∧
      epoch ≤ entry.epoch ∧ entry.epoch ≤ fencingEpoch ∧ entry.factsValid ∧ entry.sizeBytes ≠ 0 ∧
      EntriesValid fencingEpoch entry.link entry.epoch entries

/-- The link after the entries. -/
def linkAfter (prev : ChainLink) (entries : List CatalogEntry) : ChainLink :=
  entries.getLast?.elim prev (·.link)

/-- The epoch of the last entry. -/
def epochAfter (epoch : ℕ) (entries : List CatalogEntry) : ℕ :=
  entries.getLast?.elim epoch (·.epoch)

theorem linkAfter_cons {prev : ChainLink} {entry : CatalogEntry} {entries : List CatalogEntry} :
    linkAfter prev (entry :: entries) = linkAfter entry.link entries := by
  rw [linkAfter, linkAfter, getLast?_cons]
  cases entries.getLast? <;> rfl

theorem epochAfter_cons {entry : CatalogEntry} {entries : List CatalogEntry} :
    epochAfter epoch (entry :: entries) = epochAfter entry.epoch entries := by
  rw [epochAfter, epochAfter, getLast?_cons]
  cases entries.getLast? <;> rfl

section Entries

variable {fencingEpoch epoch : ℕ} {prev : ChainLink} {entries more : List CatalogEntry}

theorem checkEntries_eq_ok {u : Unit} :
    checkEntries fencingEpoch prev epoch entries = .ok u ↔
      EntriesValid fencingEpoch prev epoch entries := by
  induction entries generalizing prev epoch with
  | nil => simp [checkEntries, EntriesValid]
  | cons entry entries ih =>
    simp only [checkEntries, except_bind_eq_ok, ensure_eq_ok, ih, EntriesValid]
    constructor
    · rintro ⟨_, hprev, _, hfollows, _, hepoch, _, hfence, _, hfacts, _, hsize, h⟩
      exact ⟨hprev, hfollows, hepoch, hfence, hfacts, hsize, h⟩
    · rintro ⟨hprev, hfollows, hepoch, hfence, hfacts, hsize, h⟩
      exact ⟨(), hprev, (), hfollows, (), hepoch, (), hfence, (), hfacts, (), hsize, h⟩

theorem entriesValid_append : EntriesValid fencingEpoch prev epoch (entries ++ more) ↔
    EntriesValid fencingEpoch prev epoch entries ∧
      EntriesValid fencingEpoch (linkAfter prev entries) (epochAfter epoch entries) more := by
  induction entries generalizing prev epoch with
  | nil => simp [EntriesValid, linkAfter, epochAfter]
  | cons entry entries ih =>
    rw [cons_append, EntriesValid, EntriesValid, ih, linkAfter_cons, epochAfter_cons]
    tauto

theorem EntriesValid.mono (h : EntriesValid fencingEpoch prev epoch entries) {fencingEpoch' : ℕ}
    (hle : fencingEpoch ≤ fencingEpoch') : EntriesValid fencingEpoch' prev epoch entries := by
  induction entries generalizing prev epoch with
  | nil => exact h
  | cons entry entries ih =>
    obtain ⟨hprev, hfollows, hepoch, hfence, hfacts, hsize, hrest⟩ := h
    exact ⟨hprev, hfollows, hepoch, hfence.trans hle, hfacts, hsize, ih hrest⟩

/-- An older epoch asks for less. -/
theorem EntriesValid.of_epoch (h : EntriesValid fencingEpoch prev epoch entries) {epoch' : ℕ}
    (hle : epoch' ≤ epoch) : EntriesValid fencingEpoch prev epoch' entries := by
  cases entries with
  | nil => exact h
  | cons entry entries => exact ⟨h.1, h.2.1, hle.trans h.2.2.1, h.2.2.2⟩

end Entries

variable {catalog catalog' : WalPublicationCatalog}

/-- What `validate` checks. -/
structure Valid (catalog : WalPublicationCatalog) : Prop where
  format : catalog.formatVersion = catalogFormatVersion
  epoch_ne : catalog.fencingEpoch ≠ 0
  anchor : catalog.anchor = .genesis ↔ catalog.retiredBy = 0
  entries : EntriesValid catalog.fencingEpoch catalog.anchor 0 catalog.segments
  next : catalog.head.id < catalog.nextSegmentId

theorem validate_eq_ok {u : Unit} : catalog.validate = .ok u ↔ catalog.Valid := by
  simp only [validate, except_bind_eq_ok, ensure_eq_ok, checkEntries_eq_ok]
  constructor
  · rintro ⟨_, hformat, _, hepoch, _, hanchor, _, hentries, hnext⟩
    exact ⟨hformat, hepoch, hanchor, hentries, hnext⟩
  · rintro ⟨hformat, hepoch, hanchor, hentries, hnext⟩
    exact ⟨(), hformat, (), hepoch, (), hanchor, (), hentries, hnext⟩

theorem head_eq : catalog.head = linkAfter catalog.anchor catalog.segments := rfl

/-- The ids of a valid catalog ascend, and so no two of its entries share one. -/
theorem Valid.nodup (h : catalog.Valid) : (catalog.segments.map (·.id)).Nodup := by
  have hpairwise := (of_validate (validate_eq_ok.2 h)).1
  rw [pairwise_map] at hpairwise
  exact pairwise_map.2 (hpairwise.imp fun hlt => hlt.1.ne)

/-- What never decreases. -/
structure Advances (catalog catalog' : WalPublicationCatalog) : Prop where
  epoch : catalog.fencingEpoch ≤ catalog'.fencingEpoch
  next : catalog.nextSegmentId ≤ catalog'.nextSegmentId
  floor : catalog.seqFloor ≤ catalog'.seqFloor
  retired : catalog.retiredBy ≤ catalog'.retiredBy

theorem Advances.refl : catalog.Advances catalog := ⟨le_rfl, le_rfl, le_rfl, le_rfl⟩

theorem Advances.trans {catalog'' : WalPublicationCatalog} (h : catalog.Advances catalog')
    (h' : catalog'.Advances catalog'') : catalog.Advances catalog'' :=
  ⟨h.epoch.trans h'.epoch, h.next.trans h'.next, h.floor.trans h'.floor,
    h.retired.trans h'.retired⟩

/-! ## Fencing, retiring and setting aside -/

theorem Valid.fence (h : catalog.Valid) (hle : catalog.fencingEpoch ≤ epoch) :
    Valid { catalog with fencingEpoch := epoch } :=
  ⟨h.format, (lt_of_lt_of_le (Nat.pos_of_ne_zero h.epoch_ne) hle).ne', h.anchor,
    h.entries.mono hle, h.next⟩

theorem Valid.retireOldest (h : catalog.Valid) (count : ℕ) {generation : ℕ} (hne : generation ≠ 0)
    (hle : catalog.retiredBy ≤ generation) :
    (catalog.retireOldest count generation).Valid ∧
      catalog.Advances (catalog.retireOldest count generation) := by
  rw [WalPublicationCatalog.retireOldest]
  cases hlast : (catalog.segments.take count).getLast? with
  | none => exact ⟨h, .refl⟩
  | some last =>
    have hentries := h.entries
    rw [← take_append_drop count catalog.segments, entriesValid_append] at hentries
    obtain ⟨-, hrest⟩ := hentries
    have hlink : linkAfter catalog.anchor (catalog.segments.take count) = last.link := by
      rw [linkAfter, hlast]
      rfl
    rw [hlink] at hrest
    have hhead : linkAfter last.link (catalog.segments.drop count) = catalog.head := by
      rw [head_eq]
      conv_rhs => rw [← take_append_drop count catalog.segments]
      rw [linkAfter, linkAfter, getLast?_append]
      cases (catalog.segments.drop count).getLast? with
      | none => rw [Option.none_or, hlast, Option.elim_some, Option.elim_none]
      | some entry => rfl
    have hmem : last ∈ catalog.segments := mem_of_mem_take (mem_of_getLast? hlast)
    have hpast := ((of_validate (validate_eq_ok.2 h)).2.1 last hmem).1
    refine ⟨⟨h.format, h.epoch_ne, ?_, hrest.of_epoch (Nat.zero_le _), ?_⟩,
      ⟨le_rfl, le_rfl, le_rfl, hle⟩⟩
    · -- The anchor is the link of a segment, whose id is above that of the old anchor.
      refine iff_of_false (fun heq => ?_) hne
      have hid : last.id = 0 := congrArg ChainLink.id heq
      rw [hid] at hpast
      exact Nat.not_lt_zero _ hpast
    · exact lt_of_eq_of_lt (congrArg ChainLink.id hhead) h.next

theorem head_take_le (h : catalog.Valid) (kept : ℕ) :
    (linkAfter catalog.anchor (catalog.segments.take kept)).id ≤ catalog.head.id := by
  have hvalid : catalog.validate = .ok () := validate_eq_ok.2 h
  rw [linkAfter]
  cases hlast : (catalog.segments.take kept).getLast? with
  | some last => exact (le_head hvalid (mem_of_mem_take (mem_of_getLast? hlast))).1
  | none =>
    rw [Option.elim_none, head_eq, linkAfter]
    cases hend : catalog.segments.getLast? with
    | none => exact le_rfl
    | some last => exact ((of_validate hvalid).2.1 last (mem_of_getLast? hend)).1.le

theorem Valid.setAside (h : catalog.Valid) (kept floor : ℕ) :
    Valid { catalog with segments := catalog.segments.take kept, seqFloor := floor } := by
  have hentries := h.entries
  rw [← take_append_drop kept catalog.segments, entriesValid_append] at hentries
  exact ⟨h.format, h.epoch_ne, h.anchor, hentries.1, lt_of_le_of_lt (head_take_le h kept) h.next⟩

/-! ## Appending -/

/-- The entries are linked from the head, with the epochs from `epoch` on. -/
def Linked : ChainLink → Option ℕ → List CatalogEntry → Prop
  | _, _, [] => True
  | head, epoch, entry :: entries =>
    entry.prev = head ∧ (head.id < entry.id ∧ head.lastSeq < entry.maxSequence) ∧
      (∀ least ∈ epoch, least ≤ entry.epoch) ∧ Linked entry.link (some entry.epoch) entries

/-- What a publication adds: the part of the run after those entries that are listed. -/
structure Adds (published : List CatalogEntry) (head : ChainLink) (epoch : Option ℕ)
    (run added : List CatalogEntry) : Prop where
  suffix : ∃ listed, run = listed ++ added ∧ ∀ entry ∈ listed, entry ∈ published
  linked : Linked head epoch added
  absent : ∀ entry ∈ added, entry.id ∉ published.map (·.id)

theorem addFrom_spec {published result : List CatalogEntry} {epoch : Option ℕ} {added : Bool}
    (h : addFrom published head epoch added run = .ok result) :
    Adds published head epoch run result ∧ (added = true → run = result) := by
  induction run generalizing head epoch added result with
  | nil =>
    cases h
    exact ⟨⟨⟨[], rfl, by simp⟩, trivial, by simp⟩, fun _ => rfl⟩
  | cons entry run ih =>
    rw [addFrom] at h
    cases hlisted : lookupBy CatalogEntry.id entry.id published with
    | some listed =>
      rw [hlisted] at h
      simp only at h
      split_ifs at h with hsame
      obtain ⟨rfl, rfl⟩ := hsame
      obtain ⟨⟨⟨before, hrun, hbefore⟩, hlinked, habsent⟩, -⟩ := ih h
      refine ⟨⟨⟨listed :: before, by rw [hrun, cons_append], ?_⟩, hlinked, habsent⟩, nofun⟩
      exact forall_mem_cons.2 ⟨(of_lookupBy hlisted).1, hbefore⟩
    | none =>
      rw [hlisted] at h
      simp only [except_bind_eq_ok, ensure_eq_ok] at h
      obtain ⟨_, hid, _, ⟨hprev, hseq, hepoch⟩, rest, hrest, h⟩ := h
      cases h
      obtain ⟨⟨-, hlinked, habsent⟩, hall⟩ := ih hrest
      cases hall rfl
      refine ⟨⟨⟨[], rfl, by simp⟩, ⟨hprev, ⟨hid, hseq⟩, hepoch, hlinked⟩, ?_⟩, fun _ => rfl⟩
      refine forall_mem_cons.2 ⟨fun hmem => ?_, habsent⟩
      rw [← lookupBy_isSome, hlisted] at hmem
      cases hmem

/-- Entries that are all listed add nothing. -/
theorem addFrom_listed {published : List CatalogEntry} {epoch : Option ℕ}
    (hnodup : (published.map (·.id)).Nodup) (h : ∀ entry ∈ run, entry ∈ published) :
    addFrom published head epoch false run = .ok [] := by
  induction run with
  | nil => rfl
  | cons entry run ih =>
    obtain ⟨hentry, hrun⟩ := forall_mem_cons.1 h
    rw [addFrom, lookupBy_of_mem hnodup hentry]
    simp only [and_self, if_true]
    exact ih hrun

/-- Entries that are linked and have been verified are valid. -/
theorem entriesValid_of_linked {fencingEpoch : ℕ} {least : Option ℕ} (h : Linked head least added)
    (hleast : ∀ entry ∈ added, (∀ e ∈ least, e ≤ entry.epoch) → epoch ≤ entry.epoch)
    (hfence : ∀ entry ∈ added, entry.epoch ≤ fencingEpoch)
    (huploaded : ∀ entry ∈ added, entry.Uploaded) : EntriesValid fencingEpoch head epoch added := by
  induction added generalizing head least epoch with
  | nil => trivial
  | cons entry added ih =>
    obtain ⟨hprev, hfollows, hepoch, hrest⟩ := h
    obtain ⟨hfacts, hsize, -⟩ := (huploaded entry (.head _)).valid
    refine ⟨hprev, hfollows, hleast entry (.head _) hepoch, hfence entry (.head _), hfacts, hsize,
      ih hrest ?_ (fun e he => hfence e (.tail _ he)) fun e he => huploaded e (.tail _ he)⟩
    exact fun e _ he => he entry.epoch rfl

theorem appendAdditions_eq_ok (h : catalog.appendAdditions epoch run = .ok added) :
    epoch = catalog.fencingEpoch ∧ ascending none (run.map (·.id)) = .ok () ∧
      Adds catalog.segments catalog.head (catalog.segments.getLast?.map (·.epoch)) run added ∧
      ∀ entry ∈ added, entry.epoch ≤ catalog.fencingEpoch := by
  simp only [appendAdditions, except_bind_eq_ok, ensure_eq_ok] at h
  obtain ⟨_, hepoch, added', hadded, _, hfence, h⟩ := h
  cases h
  simp only [except_forM_eq_ok, ensure_eq_ok] at hfence
  simp only [additions, except_bind_eq_ok] at hadded
  obtain ⟨⟨⟩, hascending, hadded⟩ := hadded
  exact ⟨hepoch, hascending, (addFrom_spec hadded).1, hfence⟩

theorem segments_extendValidated (catalog : WalPublicationCatalog) (added : List CatalogEntry) :
    (catalog.extendValidated added).segments = catalog.segments ++ added := by
  rw [extendValidated]
  cases hlast : added.getLast? with
  | none => rw [getLast?_eq_none_iff.1 hlast, append_nil]
  | some last => rfl

theorem Valid.extend (h : catalog.Valid) (hadded : catalog.appendAdditions epoch run = .ok added)
    (huploaded : ∀ entry ∈ run, entry.Uploaded) :
    (catalog.extendValidated added).Valid ∧ catalog.Advances (catalog.extendValidated added) := by
  obtain ⟨-, -, ⟨⟨listed, hrun, -⟩, hlinked, -⟩, hfence⟩ := appendAdditions_eq_ok hadded
  have huploaded' : ∀ entry ∈ added, entry.Uploaded := fun entry hentry =>
    huploaded entry (hrun ▸ mem_append_right _ hentry)
  have hentries : EntriesValid catalog.fencingEpoch catalog.anchor 0 (catalog.segments ++ added) := by
    refine entriesValid_append.2 ⟨h.entries, entriesValid_of_linked hlinked ?_ hfence huploaded'⟩
    intro entry _ hle
    rw [epochAfter]
    cases hlast : catalog.segments.getLast? with
    | none => exact Nat.zero_le _
    | some last => exact hle last.epoch (by rw [hlast]; rfl)
  rw [extendValidated]
  cases hlast : added.getLast? with
  | none => exact ⟨h, .refl⟩
  | some last =>
    have hid := (huploaded' last (mem_of_getLast? hlast)).valid.2.2
    refine ⟨⟨h.format, h.epoch_ne, h.anchor, hentries, ?_⟩, ⟨le_rfl, le_max_left _ _, le_rfl, le_rfl⟩⟩
    have hhead : linkAfter catalog.anchor (catalog.segments ++ added) = last.link := by
      rw [linkAfter, getLast?_append, hlast]
      rfl
    rw [head_eq]
    change (linkAfter catalog.anchor (catalog.segments ++ added)).id < _
    rw [hhead]
    refine lt_of_lt_of_le ?_ (le_max_right _ _)
    change last.id < satAdd last.id 1
    rw [satAdd, min_eq_left hid]
    exact Nat.lt_succ_self _

/-! ## Operations -/

/-- What an accepted append of a run has done: it has added the entries that were not
    listed, and would add nothing if it were issued again. -/
structure Publishes (catalog catalog' : WalPublicationCatalog) (epoch : ℕ)
    (run : List CatalogEntry) (changed : Bool) : Prop where
  added : ∃ listed added, run = listed ++ added ∧ (∀ entry ∈ listed, entry ∈ catalog.segments) ∧
    (∀ entry ∈ added, entry.id ∉ catalog.segments.map (·.id)) ∧
    catalog'.segments = catalog.segments ++ added ∧ (changed = true ↔ added ≠ [])
  unchanged : changed = false → catalog' = catalog
  again : appendRun epoch run catalog' = .ok false catalog'

theorem Valid.publishes (h : catalog.Valid) (hadded : catalog.appendAdditions epoch run = .ok added)
    (huploaded : ∀ entry ∈ run, entry.Uploaded) :
    catalog.Publishes (catalog.extendValidated added) epoch run !added.isEmpty := by
  obtain ⟨hepoch, hascending, ⟨⟨listed, hrun, hlisted⟩, -, habsent⟩, -⟩ :=
    appendAdditions_eq_ok hadded
  have hsegments := segments_extendValidated catalog added
  refine ⟨⟨listed, added, hrun, hlisted, habsent, hsegments, by simp⟩, fun hempty => ?_, ?_⟩
  · have hnil : added = [] := by simpa using hempty
    rw [hnil]
    rfl
  · have hagain : (catalog.extendValidated added).appendAdditions epoch run = .ok [] := by
      have hfence : (catalog.extendValidated added).fencingEpoch = catalog.fencingEpoch := by
        rw [extendValidated]
        cases added.getLast? <;> rfl
      have hall : ∀ entry ∈ run, entry ∈ (catalog.extendValidated added).segments := by
        rw [hsegments, hrun]
        intro entry hentry
        rcases mem_append.1 hentry with hentry | hentry
        exacts [mem_append_left _ (hlisted entry hentry), mem_append_right _ hentry]
      simp only [appendAdditions, except_bind_eq_ok, ensure_eq_ok, hfence, additions]
      exact ⟨(), hepoch, [], ⟨(), hascending, addFrom_listed (h.extend hadded huploaded).1.nodup hall⟩,
        (), rfl, rfl⟩
    rw [appendRun, get_bind_eq_ok, check_bind_eq_ok]
    exact ⟨[], mapError_eq_ok.2 hagain, rfl⟩

theorem appendRun_yields (h : catalog.Valid) (huploaded : ∀ entry ∈ run, entry.Uploaded) :
    (appendRun epoch run).Yields catalog
      (fun changed catalog' => (catalog'.Valid ∧ catalog.Advances catalog' ∧
        catalog.fencingEpoch ≤ epoch) ∧ catalog.Publishes catalog' epoch run changed)
      fun _ catalog' => catalog' = catalog := by
  refine yields_bind (yields_get (yields_bind (yields_check
    (fun added hadded => ?_) fun _ _ => rfl)))
  rw [mapError_eq_ok] at hadded
  refine yields_bind (yields_modify (yields_pure ⟨?_, h.publishes hadded huploaded⟩))
  obtain ⟨hvalid, hadvances⟩ := h.extend hadded huploaded
  exact ⟨hvalid, hadvances, (appendAdditions_eq_ok hadded).1.ge⟩

end WalPublicationCatalog

open WalPublicationCatalog

variable {catalog : WalPublicationCatalog}

/-- An operation that is accepted is of the epoch of the catalog or a later one, and
    leads to a valid catalog; one that is refused changes nothing. -/
theorem CatalogOp.apply_yields (h : catalog.Valid) {op : CatalogOp} (hop : op.Verified) :
    op.apply.Yields catalog
      (fun _ catalog' => catalog'.Valid ∧ catalog.Advances catalog' ∧
        catalog.fencingEpoch ≤ op.epoch)
      fun _ catalog' => catalog' = catalog := by
  cases op with
  | fence epoch =>
    refine yields_discard (yields_bind (yields_get (yields_bind
      (yields_check (fun _ hle => yields_bind (yields_modify
        (yields_pure ?_))) fun _ _ => rfl))))
    rw [ensure_eq_ok] at hle
    exact ⟨h.fence hle, ⟨hle, le_rfl, le_rfl, le_rfl⟩, hle⟩
  | append epoch run =>
    exact yields_discard ((appendRun_yields h hop).imp (fun _ _ hQ => hQ.1) fun _ _ hE => hE)
  | retire epoch expected generation =>
    refine yields_discard (yields_bind (yields_get (yields_bind
      (yields_check (fun _ hepoch => yields_bind (yields_check
        (fun _ hgeneration => yields_bind (yields_check
          (fun pending _ => yields_bind (yields_check
            (fun _ _ => yields_bind (yields_modify (yields_pure ?_)))
            fun _ _ => rfl)) fun _ _ => rfl)) fun _ _ => rfl)) fun _ _ => rfl))))
    rw [requireEpoch, ensure_eq_ok] at hepoch
    rw [ensure_eq_ok] at hgeneration
    obtain ⟨hvalid, hadvances⟩ := h.retireOldest pending.length hgeneration.1 hgeneration.2
    exact ⟨hvalid, hadvances, hepoch.ge⟩
  | setAside epoch start expected floor =>
    refine yields_discard (yields_bind (yields_get (yields_bind
      (yields_check (fun _ hepoch => yields_bind (yields_check
        (fun _ _ => yields_bind (yields_modify (yields_pure ?_)))
        fun _ _ => rfl)) fun _ _ => rfl))))
    rw [requireEpoch, ensure_eq_ok] at hepoch
    exact ⟨h.setAside _ _, ⟨le_rfl, le_rfl, le_max_left _ _, le_rfl⟩, hepoch.ge⟩

/-- The catalog after the operations, also those that are refused. -/
def WalPublicationCatalog.after (catalog : WalPublicationCatalog) (ops : List CatalogOp) :
    WalPublicationCatalog :=
  Update.runAll CatalogOp.apply catalog ops

theorem WalPublicationCatalog.Valid.after (h : catalog.Valid) {ops : List CatalogOp}
    (hops : ∀ op ∈ ops, op.Verified) :
    (catalog.after ops).Valid ∧ catalog.Advances (catalog.after ops) := by
  induction ops generalizing catalog with
  | nil => exact ⟨h, .refl⟩
  | cons op ops ih =>
    obtain ⟨hop, hops⟩ := forall_mem_cons.1 hops
    have hstep : (op.apply.after catalog).Valid ∧ catalog.Advances (op.apply.after catalog) := by
      refine Update.Yields.after (P := fun catalog' => catalog'.Valid ∧ catalog.Advances catalog')
        ((CatalogOp.apply_yields h hop).imp (fun _ _ hQ => ⟨hQ.1, hQ.2.1⟩) ?_)
      rintro _ _ rfl
      exact ⟨h, .refl⟩
    obtain ⟨hvalid, hadvances⟩ := ih hstep.1 hops
    exact ⟨hvalid, hstep.2.trans hadvances⟩

/-- The entries of a valid catalog are linked from its anchor. -/
theorem WalPublicationCatalog.Valid.linked (h : catalog.Valid) :
    Linked catalog.anchor none catalog.segments := by
  have hlinked : ∀ {prev epoch entries} {least : Option ℕ}, (∀ e ∈ least, e ≤ epoch) →
      EntriesValid catalog.fencingEpoch prev epoch entries → Linked prev least entries := by
    intro prev epoch entries
    induction entries generalizing prev epoch with
    | nil => exact fun _ _ => trivial
    | cons entry entries ih =>
      rintro least hleast ⟨hprev, hfollows, hepoch, -, -, -, hrest⟩
      refine ⟨hprev, hfollows, fun e he => (hleast e he).trans hepoch, ih ?_ hrest⟩
      rintro _ ⟨⟩
      exact le_rfl
  exact hlinked (by simp) h.entries

/-- Writers of any epochs, in any interleaving: the catalog stays valid, what only rises
    rises, an operation of a fenced writer is refused, and one that is refused changes
    nothing. An append adds the entries of its run that are not listed, whether it is
    issued for the first time or again, so the entries are always linked and distinct. -/
theorem catalog_history (catalog : WalPublicationCatalog) (hvalid : catalog.validate = .ok ())
    (ops : List CatalogOp) (hops : ∀ op ∈ ops, op.Verified) :
    ((catalog.after ops).validate = .ok () ∧ catalog.Advances (catalog.after ops) ∧
      Linked (catalog.after ops).anchor none (catalog.after ops).segments ∧
      ((catalog.after ops).segments.map (·.id)).Nodup) ∧
    (∀ op : CatalogOp, op.Verified → op.apply.Yields (catalog.after ops)
      (fun _ catalog' => catalog'.validate = .ok () ∧ (catalog.after ops).Advances catalog' ∧
        (catalog.after ops).fencingEpoch ≤ op.epoch)
      fun _ catalog' => catalog' = catalog.after ops) ∧
    ∀ epoch run, (∀ entry ∈ run, CatalogEntry.Uploaded entry) →
      (appendRun epoch run).Yields (catalog.after ops)
        (fun changed catalog' => (catalog.after ops).Publishes catalog' epoch run changed)
        fun _ catalog' => catalog' = catalog.after ops := by
  obtain ⟨hafter, hadvances⟩ := (validate_eq_ok.1 hvalid).after hops
  refine ⟨⟨validate_eq_ok.2 hafter, hadvances, hafter.linked, hafter.nodup⟩, fun op hop => ?_,
    fun epoch run hrun => ?_⟩
  · exact (CatalogOp.apply_yields hafter hop).imp
      (fun _ _ hQ => ⟨validate_eq_ok.2 hQ.1, hQ.2⟩) fun _ _ hE => hE
  · exact (appendRun_yields hafter hrun).imp (fun _ _ hQ => hQ.2) fun _ _ hE => hE

/-- A segment with one record. -/
def publishedObject : SegmentObject where
  header := ⟨1, 1, .replicate 16 (byte 1), 1, .genesis⟩
  records := [(5, 0)]
  dataLen := 200
  digest := .replicate 16 (byte 2)
  sizeBytes := 300
  crc32c := 0

/-- Its entry. -/
def publishedEntry : CatalogEntry where
  epoch := 1
  prev := .genesis
  facts := ⟨⟨1, 5, .replicate 16 (byte 2)⟩, 1, 200, [(0, 5)]⟩
  sizeBytes := 300
  crc32c := 0

theorem uploaded_publishedEntry : publishedEntry.Uploaded := by
  refine ⟨publishedObject, ⟨?_, ?_, ?_, ?_, ?_⟩, "", _, rfl, rfl⟩ <;>
    simp [publishedObject, ChainLink.genesis, usizeMax, segmentHeaderLen]

/-- The first writer publishes a segment, the next one takes over, and the first one is
    fenced. -/
theorem catalog_history_takeover :
    (⟨catalogFormatVersion, 1, .genesis, 1, 0, 0, []⟩ : WalPublicationCatalog).validate = .ok () ∧
      (WalPublicationCatalog.after ⟨catalogFormatVersion, 1, .genesis, 1, 0, 0, []⟩
        [.append 1 [publishedEntry], .fence 2, .append 1 [publishedEntry]]).validate = .ok () := by
  refine ⟨rfl, (catalog_history _ rfl _ ?_).1.1⟩
  have hrun : ∀ entry ∈ [publishedEntry], entry.Uploaded := by
    intro entry hentry
    rw [mem_singleton.1 hentry]
    exact uploaded_publishedEntry
  simp only [mem_cons, not_mem_nil, or_false, forall_eq_or_imp, forall_eq]
  exact ⟨hrun, trivial, hrun⟩

/-! ## The runs of a writer -/

/-- A run is the longest piece of the owed segments, from the oldest on, that has been
    acknowledged as it was sealed. -/
theorem uploadedRun_spec (acks : AckSet) (owed run : List OwedSegment)
    (h : uploadedRun owed acks = .ok run) :
    run <+: owed ∧
      (∀ segment ∈ run, acks.maxSequence segment.segmentId = some segment.maxSequence) ∧
      ∀ segment ∈ (owed.drop run.length).head?, acks.maxSequence segment.segmentId = none := by
  obtain ⟨_, -, htake⟩ := except_bind_eq_ok.1 h
  clear h
  induction owed generalizing run with
  | nil =>
    cases htake
    exact ⟨ nil_prefix, by simp, by simp⟩
  | cons segment owed ih =>
    rw [AckSet.takeAcknowledged] at htake
    cases hsequence : acks.maxSequence segment.segmentId with
    | none =>
      rw [hsequence] at htake
      cases htake
      refine ⟨ nil_prefix, by simp, ?_⟩
      rintro _ ⟨⟩
      exact hsequence
    | some uploaded =>
      rw [hsequence] at htake
      simp only [except_bind_eq_ok, ensure_eq_ok] at htake
      obtain ⟨_, rfl, run, hrun, htake⟩ := htake
      cases htake
      obtain ⟨hfirst, hacks, hstop⟩ := ih run hrun
      exact ⟨cons_prefix_cons.2 ⟨rfl, hfirst⟩, forall_mem_cons.2 ⟨hsequence, hacks⟩, hstop⟩

theorem uploadedRun_spec_first : ∃ run, run <+: [⟨1, 5⟩, ⟨2, 6⟩] ∧
    uploadedRun [⟨1, 5⟩, ⟨2, 6⟩] (AckSet.recordUpload ⟨∅⟩ publishedEntry) = .ok run :=
  ⟨_, (uploadedRun_spec (AckSet.recordUpload ⟨∅⟩ publishedEntry) _ _ rfl).1, rfl⟩

end Midge
