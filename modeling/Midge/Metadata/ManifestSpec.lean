import Midge.Metadata.Manifest

/-!
# Valid manifests and their histories

`Manifest.Valid` is what `validatePersisted` checks. `Manifest.Succeeds` is what a later
manifest of the same history owes to an earlier one: no frontier goes back, a dropped
family keeps its entry, and a removed file stays retired until its deletion has been
confirmed. Each step that the manifest allows (`Manifest.Allows`) leads to a valid
manifest that may follow.
-/

namespace Midge

open List FlushFrontiers

/-! ## Frontiers -/

variable {frontier : FamilyFrontier}

namespace FlushFrontiers

variable {frontiers : FlushFrontiers} {id : ℕ}

theorem get_eq_ok : frontiers.get id = .ok frontier ↔ frontiers.find? id = some frontier := by
  rw [get]
  cases frontiers.find? id <;> simp

/-- No frontier at the greatest sequence is live. -/
def Proper : FamilyFrontier → Prop
  | .live sequence => sequence ≠ usizeMax
  | .dropped => True

theorem proper_of_find? (h : frontiers.find? id = some frontier) : Proper frontier := by
  obtain ⟨sequence, -, rfl⟩ := Option.map_eq_some_iff.1 h
  rw [FamilyFrontier.ofSequence]
  split_ifs with hmax
  exacts [trivial, hmax]

theorem find?_setValidated (h : Proper frontier) (id' : ℕ) :
    (frontiers.setValidated id frontier).find? id' =
      if id' = id then some frontier else frontiers.find? id' := by
  rw [find?, setValidated]
  split_ifs with hid
  · rw [hid, AList.lookup_insert, Option.map_some, FamilyFrontier.ofSequence]
    cases frontier with
    | live sequence =>
      rw [FamilyFrontier.sequence, if_neg h]
    | dropped => rfl
  · rw [AList.lookup_insert_ne hid, find?]

theorem get_setValidated (h : Proper frontier) (id' : ℕ) :
    (frontiers.setValidated id frontier).get id' =
      if id' = id then .ok frontier else frontiers.get id' := by
  rw [get, find?_setValidated h, get]
  split_ifs <;> rfl

theorem mem_entries {sequence : ℕ} : ⟨id, sequence⟩ ∈ frontiers.through.entries ↔
    frontiers.through.lookup id = some sequence := AList.mem_lookup_iff.symm

theorem dominates_eq_ok {previous : FlushFrontiers} : frontiers.dominates previous = .ok () ↔
    ∀ id old, previous.find? id = some old → ∃ new, frontiers.find? id = some new ∧
      advances old new := by
  simp only [dominates, except_forM_eq_ok, except_bind_eq_ok, ensure_eq_ok, get_eq_ok]
  constructor
  · intro h id old hold
    obtain ⟨sequence, hsequence, rfl⟩ := Option.map_eq_some_iff.1 hold
    exact h ⟨id, sequence⟩ (mem_entries.2 hsequence)
  · rintro h ⟨id, sequence⟩ hmem
    refine h id _ ?_
    rw [find?, mem_entries.1 hmem, Option.map_some]

theorem advances_refl (frontier : FamilyFrontier) : advances frontier frontier := by
  cases frontier <;> simp [advances]

theorem advances_trans {a b c : FamilyFrontier} (h : advances a b) (h' : advances b c) :
    advances a c := by
  cases a <;> cases b <;> cases c <;> simp_all [advances]
  omega

end FlushFrontiers

/-! ## Valid manifests -/

/-- A column family of a valid manifest. -/
structure FamilyValid (frontiers : FlushFrontiers) (family : ColumnFamilyMeta) : Prop where
  id_ne : family.id ≠ 0
  name_ne : family.name ≠ "default"
  frontier : ∃ frontier, frontiers.find? family.id = some frontier ∧
    Manifest.lifecycleAgrees family frontier
  names : ∀ name ∈ family.droppedSstNames, sstNameValid name

/-- The families do not share the name of a live one. -/
def LiveNamesDistinct (families : List ColumnFamilyMeta) : Prop :=
  ∀ family ∈ families, ∀ other ∈ families, family.deletedAt = none → other.deletedAt = none →
    family.name = other.name → family.id = other.id

variable {files : List FileMeta}

namespace Manifest

variable {frontiers : FlushFrontiers}

/-- What `validatePersisted` checks. -/
structure Valid (manifest : Manifest) : Prop where
  families_nodup : (manifest.columnFamilies.map (·.id)).Nodup
  family : ∀ family ∈ manifest.columnFamilies, FamilyValid manifest.flushedThrough family
  live_names : LiveNamesDistinct manifest.columnFamilies
  known : ∀ id, (manifest.flushedThrough.find? id).isSome → id ≠ 0 →
    id ∈ manifest.columnFamilies.map (·.id)
  files_nodup : (manifest.files.map (·.name)).Nodup
  file : ∀ file ∈ manifest.files, sstNameValid file.name ∧
    (manifest.flushedThrough.find? file.cfId).isSome
  retired : ∀ name file, manifest.retiredSsts.lookup name = some file →
    name = file.name ∧ name ∉ manifest.files.map (·.name) ∧ sstNameValid name ∧
      (manifest.flushedThrough.find? file.cfId).isSome
  counters : ∀ id, (manifest.nextSstSeqs.lookup id).isSome →
    (manifest.flushedThrough.find? id).isSome

theorem checkFamilies_eq_ok {families : List ColumnFamilyMeta} {ids : List ℕ}
    {names : List String} {u : Unit} : checkFamilies frontiers families ids names = .ok u ↔
      (∀ family ∈ families, FamilyValid frontiers family) ∧
      (families.map (·.id)).Nodup ∧ (∀ family ∈ families, family.id ∉ ids) ∧
      families.Pairwise (fun family other => family.deletedAt = none → other.deletedAt = none →
        family.name ≠ other.name) ∧
      ∀ family ∈ families, family.deletedAt = none → family.name ∉ names := by
  induction families generalizing ids names with
  | nil => simp [checkFamilies]
  | cons family families ih =>
    simp only [checkFamilies, except_bind_eq_ok, ensure_eq_ok, except_forM_eq_ok, ih,
      get_eq_ok, parseSstName]
    constructor
    · rintro ⟨_, ⟨hid, hname, hids⟩, frontier, hfrontier, _, hagrees, _, hlive, _, hnames, hvalid,
        hnodup, hrestIds, hpairwise, hrestNames⟩
      refine ⟨forall_mem_cons.2 ⟨⟨hid, hname, ⟨frontier, hfrontier, hagrees⟩, hnames⟩, hvalid⟩,
        ?_, forall_mem_cons.2 ⟨hids, fun f hf hmem => hrestIds f hf (.tail _ hmem)⟩, ?_,
        forall_mem_cons.2 ⟨hlive, fun f hf hnone hmem => hrestNames f hf hnone ?_⟩⟩
      · rw [map_cons, nodup_cons]
        refine ⟨fun hmem => ?_, hnodup⟩
        obtain ⟨f, hf, heq⟩ := mem_map.1 hmem
        exact hrestIds f hf (heq ▸ .head _)
      · refine pairwise_cons.2 ⟨fun f hf hnone hnone' heq => ?_, hpairwise⟩
        refine hrestNames f hf hnone' ?_
        rw [if_pos hnone, heq]
        exact .head _
      · split_ifs
        exacts [.tail _ hmem, hmem]
    · rintro ⟨hvalid, hnodup, hids, hpairwise, hnames⟩
      rw [forall_mem_cons] at hvalid hids hnames
      rw [map_cons, nodup_cons] at hnodup
      rw [pairwise_cons] at hpairwise
      obtain ⟨⟨hid, hname, ⟨frontier, hfrontier, hagrees⟩, hdropped⟩, hvalid⟩ := hvalid
      refine ⟨(), ⟨hid, hname, hids.1⟩, frontier, hfrontier, (), hagrees, (), hnames.1, (), hdropped,
        hvalid, hnodup.2, fun f hf hmem => ?_, hpairwise.2, fun f hf hnone hmem => ?_⟩
      · rcases mem_cons.1 hmem with heq | hmem
        · exact hnodup.1 (heq ▸ mem_map_of_mem hf)
        · exact hids.2 f hf hmem
      · split_ifs at hmem with hlive
        · rcases mem_cons.1 hmem with heq | hmem
          · exact hpairwise.1 f hf hlive hnone heq.symm
          · exact hnames.2 f hf hnone hmem
        · exact hnames.2 f hf hnone hmem

theorem checkFiles_eq_ok {names : List String} {u : Unit} :
    checkFiles frontiers files names = .ok u ↔
      (∀ file ∈ files, sstNameValid file.name ∧ (frontiers.find? file.cfId).isSome) ∧
      (files.map (·.name)).Nodup ∧ ∀ file ∈ files, file.name ∉ names := by
  induction files generalizing names with
  | nil => simp [checkFiles]
  | cons file files ih =>
    simp only [checkFiles, except_bind_eq_ok, ensure_eq_ok, mapError_eq_ok, parseSstName, ih,
      get_eq_ok]
    constructor
    · rintro ⟨_, hvalid, _, hname, frontier, hfrontier, hrest, hnodup, hnames⟩
      refine ⟨forall_mem_cons.2 ⟨⟨hvalid, Option.isSome_of_eq_some hfrontier⟩, hrest⟩, ?_,
        forall_mem_cons.2 ⟨hname, fun f hf hmem => hnames f hf (.tail _ hmem)⟩⟩
      rw [map_cons, nodup_cons]
      refine ⟨fun hmem => ?_, hnodup⟩
      obtain ⟨f, hf, heq⟩ := mem_map.1 hmem
      exact hnames f hf (heq ▸ .head _)
    · rintro ⟨hvalid, hnodup, hnames⟩
      rw [forall_mem_cons] at hvalid hnames
      rw [map_cons, nodup_cons] at hnodup
      obtain ⟨frontier, hfrontier⟩ := Option.isSome_iff_exists.1 hvalid.1.2
      refine ⟨(), hvalid.1.1, (), hnames.1, frontier, hfrontier, hvalid.2, hnodup.2,
        fun f hf hmem => ?_⟩
      rcases mem_cons.1 hmem with heq | hmem
      · exact hnodup.1 (heq ▸ mem_map_of_mem hf)
      · exact hnames.2 f hf hmem

theorem liveNamesDistinct_iff {families : List ColumnFamilyMeta}
    (hnodup : (families.map (·.id)).Nodup) : LiveNamesDistinct families ↔
      families.Pairwise fun family other => family.deletedAt = none → other.deletedAt = none →
        family.name ≠ other.name := by
  constructor
  · intro h
    have hids : families.Pairwise fun family other => family.id ≠ other.id :=
      pairwise_map.1 hnodup
    refine hids.imp_of_mem fun {a b} ha hb hne hlive hlive' heq => ?_
    exact hne (h a ha b hb hlive hlive' heq)
  · intro h family hfamily other hother hlive hlive' heq
    by_contra hne
    have : Std.Symm fun family other : ColumnFamilyMeta => family.deletedAt = none →
        other.deletedAt = none → family.name ≠ other.name :=
      ⟨fun _ _ hsymm hb ha => (hsymm ha hb).symm⟩
    refine h.forall hfamily hother (fun heq' => hne (by rw [heq'])) hlive hlive' heq

theorem validatePersisted_eq_ok {manifest : Manifest} :
    manifest.validatePersisted = .ok () ↔ manifest.Valid := by
  simp only [validatePersisted, except_bind_eq_ok, ensure_eq_ok, except_forM_eq_ok, parseSstName,
    checkFamilies_eq_ok, checkFiles_eq_ok, get_eq_ok]
  constructor
  · rintro ⟨_, ⟨hfamily, hnodup, -, hlive, -⟩, _, hknown, _, ⟨hfile, hfiles, -⟩, _, hretired,
      hcounters⟩
    refine ⟨hnodup, hfamily, (liveNamesDistinct_iff hnodup).2 hlive, fun id hid hne => ?_, hfiles,
      hfile, fun name file hlookup => ?_, fun id hid => ?_⟩
    · obtain ⟨frontier, hfrontier⟩ := Option.isSome_iff_exists.1 hid
      obtain ⟨sequence, hsequence, -⟩ := Option.map_eq_some_iff.1 hfrontier
      exact hknown ⟨id, sequence⟩ (mem_entries.2 hsequence) hne
    · obtain ⟨_, hname, _, hvalid, frontier, hfrontier, -⟩ :=
        hretired ⟨name, file⟩ (AList.mem_lookup_iff.1 hlookup)
      exact ⟨hname.1, hname.2, hvalid, Option.isSome_of_eq_some hfrontier⟩
    · obtain ⟨next, hnext⟩ := Option.isSome_iff_exists.1 hid
      obtain ⟨frontier, hfrontier, -⟩ := hcounters ⟨id, next⟩ (AList.mem_lookup_iff.1 hnext)
      exact Option.isSome_of_eq_some hfrontier
  · intro h
    refine ⟨(), ⟨h.family, h.families_nodup, by simp,
      (liveNamesDistinct_iff h.families_nodup).1 h.live_names, by simp⟩, (), ?_, (),
      ⟨h.file, h.files_nodup, by simp⟩, (), ?_, ?_⟩
    · rintro ⟨id, sequence⟩ hmem hne
      refine h.known id ?_ hne
      rw [FlushFrontiers.find?, FlushFrontiers.mem_entries.1 hmem]
      rfl
    · rintro ⟨name, file⟩ hmem
      obtain ⟨hname, hnot, hvalid, hknown⟩ := h.retired name file (AList.mem_lookup_iff.2 hmem)
      obtain ⟨frontier, hfrontier⟩ := Option.isSome_iff_exists.1 hknown
      exact ⟨(), ⟨hname, hnot⟩, (), hvalid, frontier, hfrontier, rfl⟩
    · rintro ⟨id, next⟩ hmem
      obtain ⟨frontier, hfrontier⟩ := Option.isSome_iff_exists.1
        (h.counters id (Option.isSome_of_eq_some (AList.mem_lookup_iff.2 hmem)))
      exact ⟨frontier, hfrontier, rfl⟩

/-! ## Histories -/

/-- What may follow a manifest in its history, when the deletion of some names has been
    confirmed. -/
structure Succeeds (manifest manifest' : Manifest) (confirmed : String → Prop) : Prop where
  frontiers : manifest'.flushedThrough.dominates manifest.flushedThrough = .ok ()
  /-- A dropped family keeps its entry. -/
  tombstones : ∀ family ∈ manifest.columnFamilies, family.deletedAt.isSome →
    ∃ family' ∈ manifest'.columnFamilies, family'.id = family.id ∧ family'.name = family.name ∧
      family'.createdAt = family.createdAt ∧ family'.deletedAt = family.deletedAt ∧
      family'.dropSequence = family.dropSequence
  retired : ∀ name, (manifest.retiredSsts.lookup name).isSome →
    (manifest'.retiredSsts.lookup name).isSome ∨ confirmed name
  files : ∀ name ∈ manifest.files.map (·.name), name ∈ manifest'.files.map (·.name) ∨
    (manifest'.retiredSsts.lookup name).isSome ∨ confirmed name

variable {manifest manifest' manifest'' : Manifest} {confirmed : String → Prop}

theorem Succeeds.refl : manifest.Succeeds manifest confirmed :=
  ⟨dominates_eq_ok.2 fun _ old h => ⟨old, h, advances_refl old⟩,
    fun family h _ => ⟨family, h, rfl, rfl, rfl, rfl, rfl⟩, fun _ h => .inl h, fun _ h => .inl h⟩

theorem Succeeds.trans (h : manifest.Succeeds manifest' confirmed)
    (h' : manifest'.Succeeds manifest'' confirmed) : manifest.Succeeds manifest'' confirmed := by
  refine ⟨dominates_eq_ok.2 fun id old hold => ?_, fun family hfamily hdeleted => ?_,
    fun name hname => ?_, fun name hname => ?_⟩
  · obtain ⟨middle, hmiddle, hadvances⟩ := dominates_eq_ok.1 h.frontiers id old hold
    obtain ⟨new, hnew, hadvances'⟩ := dominates_eq_ok.1 h'.frontiers id middle hmiddle
    exact ⟨new, hnew, advances_trans hadvances hadvances'⟩
  · obtain ⟨f, hf, hid, hname, hcreated, hdel, hdrop⟩ := h.tombstones family hfamily hdeleted
    obtain ⟨g, hg, hid', hname', hcreated', hdel', hdrop'⟩ :=
      h'.tombstones f hf (hdel ▸ hdeleted)
    exact ⟨g, hg, hid'.trans hid, hname'.trans hname, hcreated'.trans hcreated, hdel'.trans hdel,
      hdrop'.trans hdrop⟩
  · rcases h.retired name hname with hname | hname
    exacts [h'.retired name hname, .inr hname]
  · rcases h.files name hname with hname | hname | hname
    exacts [h'.files name hname, .inr (h'.retired name hname), .inr (.inr hname)]

theorem Succeeds.imp {confirmed' : String → Prop} (h : manifest.Succeeds manifest' confirmed)
    (himp : ∀ name, confirmed name → confirmed' name) : manifest.Succeeds manifest' confirmed' :=
  ⟨h.frontiers, h.tombstones, fun name hname => (h.retired name hname).imp_right (himp name),
    fun name hname => (h.files name hname).imp_right (·.imp_right (himp name))⟩

/-! ## Steps -/

/-- What a step that changes a family requires. -/
structure AllowsFamily (manifest : Manifest) (family : ColumnFamilyMeta)
    (frontier : FamilyFrontier) : Prop where
  proper : FlushFrontiers.Proper frontier
  id_ne : family.id ≠ 0
  name_ne : family.name ≠ "default"
  agrees : lifecycleAgrees family frontier
  names : ∀ name ∈ family.droppedSstNames, sstNameValid name
  live : family.deletedAt = none → ∀ other ∈ manifest.columnFamilies, other.deletedAt = none →
    other.name = family.name → other.id = family.id
  advances : ∀ old, manifest.flushedThrough.find? family.id = some old →
    FlushFrontiers.advances old frontier
  tombstone : ∀ other ∈ manifest.columnFamilies, other.id = family.id → other.deletedAt.isSome →
    family.name = other.name ∧ family.createdAt = other.createdAt ∧
      family.deletedAt = other.deletedAt ∧ family.dropSequence = other.dropSequence

/-- What a step requires of the manifest. -/
def Allows (manifest : Manifest) (confirmed : String → Prop) : ManifestStep → Prop
  | .add file => sstNameValid file.name ∧ (manifest.flushedThrough.find? file.cfId).isSome ∧
      manifest.retiredSsts.lookup file.name = none
  | .remove _ => True
  | .move files => ∀ file ∈ files, (manifest.flushedThrough.find? file.cfId).isSome
  | .deleted name => confirmed name
  | .family family frontier => manifest.AllowsFamily family frontier
  | .frontier id value => ∃ old new, value = .live new ∧ new ≠ usizeMax ∧
      manifest.flushedThrough.find? id = some (.live old) ∧ old ≤ new
  | .next id _ => (manifest.flushedThrough.find? id).isSome

theorem agrees_live {family : ColumnFamilyMeta} {old new : ℕ}
    (h : lifecycleAgrees family (.live old)) : lifecycleAgrees family (.live new) := by
  simpa [lifecycleAgrees] using h

section Commit

variable (hvalid : manifest.Valid)

include hvalid

theorem valid_add {file : FileMeta} (h : manifest.Allows confirmed (.add file)) :
    (manifest.addFile file).Valid := by
  obtain ⟨hname, hknown, hretired⟩ := h
  refine { hvalid with
    files_nodup := nodup_upsert hvalid.files_nodup
    file := fun f hf => ?_
    retired := fun name f hlookup => ?_ }
  · rcases (mem_upsert hvalid.files_nodup).1 hf with rfl | ⟨hf, -⟩
    exacts [⟨hname, hknown⟩, hvalid.file f hf]
  · obtain ⟨heq, hnot, hrest⟩ := hvalid.retired name f hlookup
    refine ⟨heq, fun hmem => ?_, hrest⟩
    rcases mem_map_upsert.1 hmem with rfl | hmem
    · cases hlookup.symm.trans hretired
    · exact hnot hmem

omit hvalid in
theorem mem_files_removeFile {name name' : String} :
    name' ∈ (manifest.removeFile name).files.map (·.name) ↔
      name' ≠ name ∧ name' ∈ manifest.files.map (·.name) := by
  simp only [removeFile, mem_map, mem_filter, decide_eq_true_eq]
  constructor
  · rintro ⟨f, ⟨hf, hne⟩, rfl⟩
    exact ⟨hne, f, hf, rfl⟩
  · rintro ⟨hne, f, hf, rfl⟩
    exact ⟨f, ⟨hf, hne⟩, rfl⟩

omit hvalid in
theorem lookup_removeFile {name name' : String} :
    (manifest.removeFile name).retiredSsts.lookup name' =
      if name' = name ∧ name ∈ manifest.files.map (·.name) then
        lookupBy FileMeta.name name manifest.files
      else manifest.retiredSsts.lookup name' := by
  rw [removeFile]
  simp only
  cases hfile : lookupBy FileMeta.name name manifest.files with
  | none =>
    have hnot : name ∉ manifest.files.map (·.name) := by
      rw [← lookupBy_isSome, hfile]
      simp
    simp [hnot]
  | some file =>
    have hmem : name ∈ manifest.files.map (·.name) := by
      rw [← lookupBy_isSome, hfile]
      rfl
    rw [Option.elim_some]
    split_ifs with heq
    · rw [heq.1, AList.lookup_insert]
    · exact AList.lookup_insert_ne fun h => heq ⟨h, hmem⟩

theorem valid_remove (name : String) : (manifest.removeFile name).Valid := by
  refine { hvalid with
    files_nodup := hvalid.files_nodup.sublist (filter_sublist.map _)
    file := fun f hf => hvalid.file f (mem_of_mem_filter hf)
    retired := fun name' f hlookup => ?_ }
  rw [mem_files_removeFile]
  rw [lookup_removeFile] at hlookup
  split_ifs at hlookup with heq
  · obtain ⟨hf, hname⟩ := of_lookupBy hlookup
    obtain ⟨hvalidName, hknown⟩ := hvalid.file f hf
    rw [heq.1]
    exact ⟨hname.symm, fun h => h.1 rfl, hname ▸ hvalidName, hknown⟩
  · obtain ⟨hname, hnot, hrest⟩ := hvalid.retired name' f hlookup
    exact ⟨hname, fun h => hnot h.2, hrest⟩

omit hvalid in
theorem map_replaceAll (moved : List FileMeta) (files : List FileMeta) :
    (moved.foldl (fun files moved => replaceBy FileMeta.name moved files) files).map (·.name) =
      files.map (·.name) := by
  induction moved generalizing files with
  | nil => rfl
  | cons m moved ih => rw [foldl_cons, ih, map_replaceBy]

omit hvalid in
theorem mem_replaceAll {moved : List FileMeta} {file : FileMeta}
    (h : file ∈ moved.foldl (fun files moved => replaceBy FileMeta.name moved files) files) :
    file ∈ files ∨ file ∈ moved ∧ file.name ∈ files.map (·.name) := by
  induction moved generalizing files with
  | nil => exact .inl h
  | cons m moved ih =>
    rcases ih h with h | ⟨h, hname⟩
    · rcases mem_replaceBy h with ⟨rfl, hname⟩ | h
      exacts [.inr ⟨.head _, hname⟩, .inl h]
    · rw [map_replaceBy] at hname
      exact .inr ⟨.tail _ h, hname⟩

theorem valid_move (h : manifest.Allows confirmed (.move files)) :
    (manifest.commitStep (.move files)).Valid := by
  refine { hvalid with
    files_nodup := (map_replaceAll files manifest.files).symm ▸ hvalid.files_nodup
    file := fun f hf => ?_
    retired := fun name f hlookup => ?_ }
  · rcases mem_replaceAll hf with hf | ⟨hf, hname⟩
    · exact hvalid.file f hf
    · obtain ⟨g, hg, heq⟩ := mem_map.1 hname
      exact ⟨heq ▸ (hvalid.file g hg).1, h f hf⟩
  · rw [Manifest.commitStep, map_replaceAll]
    exact hvalid.retired name f hlookup

theorem valid_deleted (name : String) : (manifest.commitStep (.deleted name)).Valid := by
  refine { hvalid with retired := fun name' f hlookup => ?_ }
  by_cases hname : name' = name
  · subst hname
    rw [Manifest.commitStep, AList.lookup_erase] at hlookup
    cases hlookup
  · rw [Manifest.commitStep, AList.lookup_erase_ne hname] at hlookup
    exact hvalid.retired name' f hlookup

omit hvalid in
theorem isSome_setValidated {id : ℕ} (hproper : FlushFrontiers.Proper frontier) {id' : ℕ}
    (h : (manifest.flushedThrough.find? id').isSome) :
    ((manifest.flushedThrough.setValidated id frontier).find? id').isSome := by
  rw [find?_setValidated hproper]
  split_ifs
  exacts [rfl, h]

theorem valid_family {family : ColumnFamilyMeta}
    (h : manifest.Allows confirmed (.family family frontier)) :
    (manifest.commitStep (.family family frontier)).Valid := by
  have hmem : ∀ {f}, f ∈ upsert ColumnFamilyMeta.id family manifest.columnFamilies ↔
      f = family ∨ f ∈ manifest.columnFamilies ∧ f.id ≠ family.id :=
    mem_upsert hvalid.families_nodup
  have hknown : ∀ {id}, (manifest.flushedThrough.find? id).isSome →
      ((manifest.flushedThrough.setValidated family.id frontier).find? id).isSome :=
    isSome_setValidated h.proper
  refine ⟨nodup_upsert hvalid.families_nodup, fun f hf => ?_, fun f hf g hg hlive hlive' heq => ?_,
    fun id hid hne => ?_, hvalid.files_nodup, fun f hf => ?_, fun name f hlookup => ?_,
    fun id hid => hknown (hvalid.counters id hid)⟩
  · rcases hmem.1 hf with rfl | ⟨hf, hne⟩
    · refine ⟨h.id_ne, h.name_ne, ⟨frontier, ?_, h.agrees⟩, h.names⟩
      exact (find?_setValidated h.proper _).trans (if_pos rfl)
    · obtain ⟨hid, hname, ⟨old, hold, hagrees⟩, hnames⟩ := hvalid.family f hf
      refine ⟨hid, hname, ⟨old, ?_, hagrees⟩, hnames⟩
      exact (find?_setValidated h.proper _).trans ((if_neg hne).trans hold)
  · rcases hmem.1 hf with rfl | ⟨hf', -⟩
    · rcases hmem.1 hg with rfl | ⟨hg', -⟩
      exacts [rfl, (h.live hlive g hg' hlive' heq.symm).symm]
    · rcases hmem.1 hg with rfl | ⟨hg', -⟩
      exacts [h.live hlive' f hf' hlive heq, hvalid.live_names f hf' g hg' hlive hlive' heq]
  · change id ∈ (upsert ColumnFamilyMeta.id family manifest.columnFamilies).map _
    rw [mem_map_upsert]
    by_cases heq : id = family.id
    · exact .inl heq
    · refine .inr (hvalid.known id ?_ hne)
      change ((manifest.flushedThrough.setValidated family.id frontier).find? id).isSome at hid
      rwa [find?_setValidated h.proper, if_neg heq] at hid
  · exact (hvalid.file f hf).imp_right hknown
  · obtain ⟨hname, hnot, hparse, hcf⟩ := hvalid.retired name f hlookup
    exact ⟨hname, hnot, hparse, hknown hcf⟩

theorem valid_frontier {id : ℕ} {value : FamilyFrontier}
    (h : manifest.Allows confirmed (.frontier id value)) :
    (manifest.commitStep (.frontier id value)).Valid := by
  obtain ⟨old, new, rfl, hne, hold, -⟩ := h
  have hproper : FlushFrontiers.Proper (.live new) := hne
  have hknown : ∀ {id'}, (manifest.flushedThrough.find? id').isSome →
      ((manifest.flushedThrough.setValidated id (.live new)).find? id').isSome :=
    isSome_setValidated hproper
  refine ⟨hvalid.families_nodup, fun f hf => ?_, hvalid.live_names, fun id' hid hne' => ?_,
    hvalid.files_nodup, fun f hf => (hvalid.file f hf).imp_right hknown, fun name f hlookup => ?_,
    fun id' hid => hknown (hvalid.counters id' hid)⟩
  · obtain ⟨hid, hname, ⟨frontier, hfrontier, hagrees⟩, hnames⟩ := hvalid.family f hf
    by_cases heq : f.id = id
    · rw [heq, hold] at hfrontier
      cases hfrontier
      refine ⟨hid, hname, ⟨.live new, ?_, agrees_live hagrees⟩, hnames⟩
      exact (find?_setValidated hproper _).trans (if_pos heq)
    · refine ⟨hid, hname, ⟨frontier, ?_, hagrees⟩, hnames⟩
      exact (find?_setValidated hproper _).trans ((if_neg heq).trans hfrontier)
  · refine hvalid.known id' ?_ hne'
    change ((manifest.flushedThrough.setValidated id (.live new)).find? id').isSome at hid
    rw [find?_setValidated hproper] at hid
    split_ifs at hid with heq
    · rw [heq, hold]
      rfl
    · exact hid
  · obtain ⟨hname, hnot, hparse, hcf⟩ := hvalid.retired name f hlookup
    exact ⟨hname, hnot, hparse, hknown hcf⟩

theorem valid_next {id next : ℕ} (h : manifest.Allows confirmed (.next id next)) :
    (manifest.commitStep (.next id next)).Valid := by
  refine { hvalid with counters := fun id' hid => ?_ }
  by_cases heq : id' = id
  · rw [heq]
    exact h
  · rw [Manifest.commitStep, AList.lookup_insert_ne heq] at hid
    exact hvalid.counters id' hid

/-- A step that the manifest allows leads to a valid manifest. -/
theorem valid_commitStep {step : ManifestStep} (h : manifest.Allows confirmed step) :
    (manifest.commitStep step).Valid := by
  cases step with
  | add file => exact valid_add hvalid h
  | remove name => exact valid_remove hvalid name
  | move files => exact valid_move hvalid h
  | deleted name => exact valid_deleted hvalid name
  | family family frontier => exact valid_family hvalid h
  | frontier id value => exact valid_frontier hvalid h
  | next id next => exact valid_next hvalid h

/-- A step that the manifest allows leads to one that may follow. -/
theorem succeeds_commitStep {step : ManifestStep} (h : manifest.Allows confirmed step) :
    manifest.Succeeds (manifest.commitStep step) confirmed := by
  have hrefl : manifest.Succeeds manifest confirmed := .refl
  cases step with
  | add file => exact { hrefl with
      files := fun name hname => .inl (mem_map_upsert.2 (.inr hname)) }
  | remove name =>
    refine { hrefl with retired := fun name' hname => .inl ?_, files := fun name' hname => ?_ }
    · change ((manifest.removeFile name).retiredSsts.lookup name').isSome
      rw [lookup_removeFile]
      split_ifs with heq
      · exact lookupBy_isSome.2 heq.2
      · exact hname
    · change _ ∈ (manifest.removeFile name).files.map _ ∨
        ((manifest.removeFile name).retiredSsts.lookup name').isSome ∨ _
      rw [mem_files_removeFile, lookup_removeFile]
      by_cases heq : name' = name
      · subst heq
        rw [if_pos ⟨rfl, hname⟩]
        exact .inr (.inl (lookupBy_isSome.2 hname))
      · exact .inl ⟨heq, hname⟩
  | move files => exact { hrefl with
      files := fun name hname => .inl ((map_replaceAll files manifest.files).symm ▸ hname) }
  | deleted name =>
    refine { hrefl with retired := fun name' hname => ?_, files := fun _ hname => .inl hname }
    by_cases heq : name' = name
    · exact .inr (heq ▸ h)
    · refine .inl ?_
      rw [Manifest.commitStep, AList.lookup_erase_ne heq]
      exact hname
  | family family frontier =>
    refine { hrefl with
      frontiers := dominates_eq_ok.2 fun id old hold => ?_
      tombstones := fun f hf hdeleted => ?_ }
    · change ∃ new, (manifest.flushedThrough.setValidated family.id frontier).find? id = _ ∧ _
      rw [find?_setValidated h.proper]
      split_ifs with heq
      · exact ⟨frontier, rfl, h.advances old (heq ▸ hold)⟩
      · exact ⟨old, hold, advances_refl old⟩
    · by_cases heq : f.id = family.id
      · obtain ⟨hname, hcreated, hdel, hdrop⟩ := h.tombstone f hf heq hdeleted
        exact ⟨family, (mem_upsert hvalid.families_nodup).2 (.inl rfl), heq.symm, hname, hcreated,
          hdel, hdrop⟩
      · exact ⟨f, (mem_upsert hvalid.families_nodup).2 (.inr ⟨hf, heq⟩), rfl, rfl, rfl, rfl, rfl⟩
  | frontier id value =>
    obtain ⟨old, new, rfl, hne, hold, hle⟩ := h
    refine { hrefl with frontiers := dominates_eq_ok.2 fun id' old' hold' => ?_ }
    change ∃ new', (manifest.flushedThrough.setValidated id (.live new)).find? id' = _ ∧ _
    have hproper : FlushFrontiers.Proper (.live new) := hne
    rw [find?_setValidated hproper]
    split_ifs with heq
    · rw [heq, hold] at hold'
      cases hold'
      exact ⟨_, rfl, by simpa [advances] using hle⟩
    · exact ⟨old', hold', advances_refl old'⟩
  | next id next => exact { hrefl with }

end Commit

end Manifest

end Midge
