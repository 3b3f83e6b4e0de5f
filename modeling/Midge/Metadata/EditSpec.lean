import Midge.Metadata.ManifestSpec

/-!
# What the edits of a manifest preserve

The validator of an edit never builds the manifest that the parts so far would leave: it
looks up what they have changed in its overlays, and the rest in the manifest it started
from. Both agree (`EditValidator.Agrees`), so each step that it records is one that the
manifest allows when the step is committed (`EditValidator.Tracks`). An edit that is
accepted therefore leads to a valid manifest that may follow in the history.
-/

namespace Midge

open List Option Update FlushFrontiers Manifest FileMeta EditValidator ManifestEdit

theorem lookup_insert_ite {κ β : Type} [DecidableEq κ] {l : AList fun _ : κ => β} {k k' : κ}
    {b : β} : (l.insert k b).lookup k' = if k' = k then some b else l.lookup k' := by
  split_ifs with h
  · rw [h, AList.lookup_insert]
  · rw [AList.lookup_insert_ne h]

/-- Whether the edit confirms that a file has been deleted. -/
def ManifestEdit.confirms (edit : ManifestEdit) (name : String) : Prop :=
  ∃ file, .completeSstDelete file ∈ edit.leaves ∧ file.name = name

namespace EditValidator

variable {v v' : EditValidator} {confirmed : String → Prop}

/-- The manifest that the steps so far lead to. -/
def manifest (v : EditValidator) : Manifest := v.steps.foldl commitStep v.base

/-- What the validator looks up is what the manifest has. -/
structure Agrees (v : EditValidator) (manifest : Manifest) : Prop where
  frontier : ∀ id, v.frontier id = manifest.flushedThrough.get id
  family : ∀ id, v.family id = lookupBy ColumnFamilyMeta.id id manifest.columnFamilies
  file : ∀ name, v.file name = lookupBy FileMeta.name name manifest.files
  retired : ∀ name, (manifest.retiredSsts.lookup name).isSome →
    (v.base.retiredSsts.lookup name).isSome ∨ v.files.lookup name = some none

/-- The steps so far lead to a valid manifest, which the validator knows. -/
structure Tracks (v : EditValidator) (confirmed : String → Prop) : Prop where
  base : v.base.Valid
  valid : v.manifest.Valid
  succeeds : v.base.Succeeds v.manifest confirmed
  agrees : v.Agrees v.manifest

theorem tracks_new {base : Manifest} (h : base.Valid) : (new base).Tracks confirmed :=
  ⟨h, h, .refl, fun _ => rfl, fun _ => rfl, fun _ => rfl, fun _ => .inl⟩

/-- Record a step that the manifest allows. -/
theorem Tracks.record (h : v.Tracks confirmed) {step : ManifestStep} (hbase : v'.base = v.base)
    (hsteps : v'.steps = v.steps ++ [step]) (hallows : v.manifest.Allows confirmed step)
    (hagrees : v'.Agrees (v.manifest.commitStep step)) : v'.Tracks confirmed := by
  have heq : v'.manifest = v.manifest.commitStep step := by
    rw [manifest, hbase, hsteps, foldl_append]
    rfl
  refine ⟨hbase ▸ h.base, ?_, ?_, heq ▸ hagrees⟩
  · rw [heq]
    exact Manifest.valid_commitStep h.valid hallows
  · rw [heq, hbase]
    exact h.succeeds.trans (Manifest.succeeds_commitStep h.valid hallows)

/-! ## Lookups -/

section

variable (h : v.Tracks confirmed)

include h

theorem Tracks.find?_of_frontier {id : ℕ} {frontier : FamilyFrontier}
    (hfrontier : v.frontier id = .ok frontier) :
    v.manifest.flushedThrough.find? id = some frontier :=
  get_eq_ok.1 ((h.agrees.frontier id).symm.trans hfrontier)

theorem Tracks.mem_of_family {id : ℕ} {family : ColumnFamilyMeta}
    (hfamily : v.family id = some family) :
    family ∈ v.manifest.columnFamilies ∧ family.id = id :=
  of_lookupBy ((h.agrees.family id).symm.trans hfamily)

theorem Tracks.family_of_mem {family : ColumnFamilyMeta} (hmem : family ∈ v.manifest.columnFamilies)
    : v.family family.id = some family :=
  (h.agrees.family family.id).trans (lookupBy_of_mem h.valid.families_nodup hmem)

theorem Tracks.mem_of_file {name : String} {file : FileMeta} (hfile : v.file name = some file) :
    file ∈ v.manifest.files ∧ file.name = name :=
  of_lookupBy ((h.agrees.file name).symm.trans hfile)

/-- Every live family of the manifest is among the live names. -/
theorem Tracks.mem_liveNames {family : ColumnFamilyMeta} (hmem : family ∈ v.manifest.columnFamilies)
    (hlive : family.deletedAt = none) :
    (family.id, family.name) ∈ v.liveNames := by
  have hfamily := h.family_of_mem hmem
  refine mem_map.2 ⟨family, mem_filter.2 ⟨?_, by simp [hlive]⟩, rfl⟩
  rw [mem_append, mem_filter]
  rw [EditValidator.family] at hfamily
  cases hlookup : v.families.lookup family.id with
  | none =>
    rw [hlookup, none_or] at hfamily
    exact .inr ⟨(of_lookupBy hfamily).1, rfl⟩
  | some changed =>
    rw [hlookup, some_or] at hfamily
    cases hfamily
    exact .inl (mem_map.2 ⟨⟨_, _⟩, AList.mem_lookup_iff.1 hlookup, rfl⟩)

/-- The file of a current name is one that the validator finds. -/
theorem file_isSome_of_mem_currentFiles {file : FileMeta} (hmem : file ∈ v.currentFiles) :
    (v.file file.name).isSome := by
  rcases mem_append.1 hmem with hmem | hmem
  · obtain ⟨hmem, hnone⟩ := mem_filter.1 hmem
    rw [EditValidator.file, isNone_iff_eq_none.1 hnone]
    exact lookupBy_isSome.2 (mem_map_of_mem hmem)
  · obtain ⟨⟨name, changed⟩, hentry, heq⟩ := mem_filterMap.1 hmem
    cases heq
    have hfile : v.file name = some file := by
      rw [EditValidator.file, AList.mem_lookup_iff.2 hentry]
      rfl
    rw [(h.mem_of_file hfile).2, hfile]
    rfl

/-- The names of the files of a family are those of SSTs. -/
theorem Tracks.namesOf_valid {id : ℕ} {name : String} (hmem : name ∈ v.namesOf id) :
    sstNameValid name := by
  have hmem := (destutter_sublist _ _).subset hmem
  rw [List.mem_mergeSort, List.mem_map] at hmem
  obtain ⟨file, hfile, rfl⟩ := hmem
  rcases mem_append.1 hfile with hfile | hfile
  · exact (h.base.file file (mem_of_mem_filter hfile)).1
  · obtain ⟨⟨name, changed⟩, hentry, heq⟩ :=
      mem_filterMap.1 (mem_of_mem_filter hfile)
    cases heq
    have hlookup : v.file name = some file := by
      rw [EditValidator.file, AList.mem_lookup_iff.2 hentry]
      rfl
    exact (h.valid.file file (h.mem_of_file hlookup).1).1

end

/-! ## Families -/

theorem Agrees.insert_frontier {manifest : Manifest} (h : v.Agrees manifest)
    {frontier : FamilyFrontier} (hproper : FlushFrontiers.Proper frontier) (id id' : ℕ) :
    ((v.frontiers.insert id frontier).lookup id').elim (v.base.flushedThrough.get id') .ok =
      get (manifest.flushedThrough.setValidated id frontier) id' := by
  rw [lookup_insert_ite, get_setValidated hproper, ← h.frontier]
  split_ifs <;> rfl

theorem Agrees.insert_family {manifest : Manifest} (h : v.Agrees manifest)
    (family : ColumnFamilyMeta) (id : ℕ) :
    ((v.families.insert family.id family).lookup id).or
        (lookupBy ColumnFamilyMeta.id id v.base.columnFamilies) =
      lookupBy ColumnFamilyMeta.id id (upsert ColumnFamilyMeta.id family manifest.columnFamilies) := by
  rw [lookup_insert_ite, lookupBy_upsert, ← h.family]
  split_ifs <;> rfl

theorem Tracks.pushFamily (h : v.Tracks confirmed) {id : ℕ} {family : ColumnFamilyMeta}
    {frontier : FamilyFrontier} (hid : family.id = id)
    (hallows : v.manifest.AllowsFamily family frontier) :
    (v.pushFamily id family frontier).Tracks confirmed := by
  subst hid
  exact h.record rfl rfl hallows ⟨h.agrees.insert_frontier hallows.proper _,
    h.agrees.insert_family family, h.agrees.file, h.agrees.retired⟩

/-- The family that is there, with its frontier. -/
theorem Tracks.allows_same (h : v.Tracks confirmed) {family : ColumnFamilyMeta}
    (hmem : family ∈ v.manifest.columnFamilies) {frontier : FamilyFrontier}
    (hfrontier : v.manifest.flushedThrough.find? family.id = some frontier) :
    v.manifest.AllowsFamily family frontier := by
  obtain ⟨hid, hname, ⟨frontier', hfrontier', hagrees⟩, hnames⟩ := h.valid.family family hmem
  cases hfrontier.symm.trans hfrontier'
  refine ⟨proper_of_find? hfrontier, hid, hname, hagrees, hnames,
    fun hlive other hother hlive' heq => h.valid.live_names other hother family hmem hlive' hlive heq,
    fun old hold => ?_, fun other hother heq _ => ?_⟩
  · cases hfrontier.symm.trans hold
    exact advances_refl frontier
  · have heq := (h.family_of_mem hother).symm.trans (heq ▸ h.family_of_mem hmem)
    cases heq
    exact ⟨rfl, rfl, rfl, rfl⟩

theorem Tracks.createFamily (h : v.Tracks confirmed) {id createdAt : ℕ} {name : String}
    (hv' : v.createFamily id name createdAt = .ok v') :
    v'.Tracks confirmed ∧ v'.base = v.base := by
  rw [EditValidator.createFamily] at hv'
  split_ifs at hv' with hreplayed hexists
  · cases hv'
    exact ⟨h, rfl⟩
  · simp only [planCreate, except_bind_eq_ok, ensure_eq_ok] at hv'
    obtain ⟨family, ⟨_, -, hplan⟩, frontier, hfrontier, _, hdropped, hv'⟩ := hv'
    cases hv'
    obtain ⟨existing, hexisting⟩ := isSome_iff_exists.1 hexists
    rw [hexisting] at hplan
    simp only at hplan
    split_ifs at hplan
    cases hplan
    obtain ⟨hmem, hid⟩ := h.mem_of_family hexisting
    refine ⟨h.pushFamily hid (h.allows_same hmem ?_), rfl⟩
    rw [hid]
    exact h.find?_of_frontier hfrontier
  · simp only [planCreate, except_bind_eq_ok, ensure_eq_ok] at hv'
    obtain ⟨family, ⟨_, ⟨hid, hname, hnames⟩, hplan⟩, frontier, hfrontier, _, -, hv'⟩ := hv'
    cases hv'
    cases hfrontier
    rw [not_isSome_iff_eq_none] at hexists
    rw [hexists] at hplan
    cases hplan
    have hnew : ∀ other ∈ v.manifest.columnFamilies, other.id ≠ id := by
      rintro other hother rfl
      cases (h.family_of_mem hother).symm.trans hexists
    have hproper : FlushFrontiers.Proper (.live 0) := by simp [FlushFrontiers.Proper, usizeMax]
    refine ⟨h.pushFamily rfl ⟨hproper, hid, hname, rfl, by simp, fun _ other hother hlive heq => ?_,
      fun old hold => ?_, fun other hother heq => absurd heq (hnew other hother)⟩, rfl⟩
    · by_contra hne
      refine hnames (any_eq_true.2 ⟨_, h.mem_liveNames hother hlive, ?_⟩)
      simpa using ⟨hne, heq⟩
    · -- A frontier without a family would be an orphan.
      obtain ⟨other, hother, heq⟩ := mem_map.1
        (h.valid.known id (isSome_iff_exists.2 ⟨old, hold⟩) hid)
      exact absurd heq (hnew other hother)

theorem Tracks.dropFamily (h : v.Tracks confirmed) {now id dropSequence : ℕ}
    {names : List String} (hnames : ∀ name ∈ names, sstNameValid name)
    (hv' : v.dropFamily now id dropSequence names = .ok v') :
    v'.Tracks confirmed ∧ v'.base = v.base := by
  simp only [EditValidator.dropFamily, planDrop, except_bind_eq_ok, elim_error_eq_ok] at hv'
  obtain ⟨_, -, _, -, family, ⟨existing, hexisting, _, -, hplan⟩, hv'⟩ := hv'
  cases hv'
  have hnames' : ∀ name ∈ if names = [] then v.namesOf id else names, sstNameValid name := by
    intro name hmem
    split_ifs at hmem
    exacts [h.namesOf_valid hmem, hnames name hmem]
  obtain ⟨hmem, hid⟩ := h.mem_of_family hexisting
  obtain ⟨hne, hname, ⟨frontier, hfrontier, hagrees⟩, hdropped⟩ := h.valid.family existing hmem
  by_cases hdeleted : existing.deletedAt.isSome
  · rw [if_pos hdeleted] at hplan
    split_ifs at hplan
    cases hplan
    refine ⟨h.pushFamily hid (h.allows_same hmem ?_), rfl⟩
    have hagrees : frontier = .dropped := by
      simp only [Manifest.lifecycleAgrees, hdeleted, Bool.and_eq_true] at hagrees
      simpa using hagrees.1.1.1
    rw [hfrontier, hagrees]
  · rw [if_neg hdeleted] at hplan
    cases hplan
    refine ⟨h.pushFamily hid ⟨trivial, hne, hname, rfl, hnames', by simp,
      fun old _ => by cases old <;> rfl, fun other hother heq hother' => ?_⟩, rfl⟩
    have heq := (h.family_of_mem hother).symm.trans (heq ▸ h.family_of_mem hmem)
    cases heq
    exact absurd hother' hdeleted

/-! ## Files -/

/-- Record the removal of a file. -/
def remove (v : EditValidator) (name : String) : EditValidator :=
  { v with files := v.files.insert name none, steps := v.steps ++ [.remove name] }

theorem file_insert {name name' : String} {file : Option FileMeta} {steps : List ManifestStep} :
    EditValidator.file { v with files := v.files.insert name file, steps := steps } name' =
      if name' = name then file else v.file name' := by
  change ((v.files.insert name file).lookup name').elim _ _ = _
  rw [lookup_insert_ite]
  split_ifs <;> rfl

theorem Tracks.remove (h : v.Tracks confirmed) (name : String) :
    (v.remove name).Tracks confirmed := by
  refine h.record rfl rfl trivial ⟨h.agrees.frontier, h.agrees.family, fun name' => ?_,
    fun name' hretired => ?_⟩
  · rw [EditValidator.remove, file_insert, h.agrees.file]
    exact lookupBy_filter_ne.symm
  · change ((v.manifest.removeFile name).retiredSsts.lookup name').isSome at hretired
    change _ ∨ (v.files.insert name none).lookup name' = _
    rw [Manifest.lookup_removeFile] at hretired
    rw [lookup_insert_ite]
    by_cases heq : name' = name
    · exact .inr (if_pos heq)
    · rw [if_neg fun hand => heq hand.1] at hretired
      rw [if_neg heq]
      exact h.agrees.retired name' hretired

theorem Tracks.addSst (h : v.Tracks confirmed) {file : FileMeta}
    (hname : sstNameValid file.name) (hv' : v.addSst file = .ok v') :
    v'.Tracks confirmed ∧ v'.base = v.base := by
  simp only [EditValidator.addSst, except_bind_eq_ok, ensure_eq_ok] at hv'
  obtain ⟨_, ⟨hbase, hremoved⟩, frontier, hfrontier, _, -, _, -, hv'⟩ := hv'
  cases hv'
  have hretired : v.manifest.retiredSsts.lookup file.name = none := by
    rw [← not_isSome_iff_eq_none]
    intro hsome
    rcases h.agrees.retired file.name hsome with hsome | hsome
    · rw [isNone_iff_eq_none.1 hbase] at hsome
      cases hsome
    · exact hremoved hsome
  refine ⟨h.record rfl rfl ⟨hname, ?_, hretired⟩ ⟨h.agrees.frontier, h.agrees.family,
    fun name' => ?_, fun name' hsome => ?_⟩, rfl⟩
  · rw [h.find?_of_frontier hfrontier]
    rfl
  · rw [file_insert, h.agrees.file]
    exact lookupBy_upsert.symm
  · have hne : name' ≠ file.name := by
      rintro rfl
      change (v.manifest.retiredSsts.lookup _).isSome at hsome
      rw [hretired] at hsome
      cases hsome
    change _ ∨ (v.files.insert file.name (some file)).lookup name' = _
    rw [AList.lookup_insert_ne hne]
    exact h.agrees.retired name' hsome

/-- What the overlay of the files becomes by a move. -/
def overlay (moved : List FileMeta) (files : AList fun _ : String => Option FileMeta) :
    AList fun _ : String => Option FileMeta :=
  moved.foldl (fun files file => files.insert file.name (some file)) files

theorem moveFiles_eq {target : ℕ} {captured : List FileMeta}
    (hv' : moveFiles target v captured = .ok v') :
    v' = { v with
      files := overlay (captured.map fun file => { file with level := target }) v.files } ∧
      ∀ file ∈ captured, ∃ frontier, v.frontier file.cfId = .ok frontier := by
  induction captured generalizing v with
  | nil =>
    cases hv'
    exact ⟨rfl, by simp⟩
  | cons file captured ih =>
    simp only [moveFiles, except_bind_eq_ok, ensure_eq_ok] at hv'
    obtain ⟨frontier, hfrontier, _, -, hv'⟩ := hv'
    obtain ⟨rfl, hknown⟩ := ih hv'
    exact ⟨rfl, forall_mem_cons.2 ⟨⟨frontier, hfrontier⟩, hknown⟩⟩

theorem lookup_overlay {moved : List FileMeta} {files : AList fun _ : String => Option FileMeta}
    {name : String} (hname : name ∉ moved.map (·.name)) :
    (overlay moved files).lookup name = files.lookup name := by
  induction moved generalizing files with
  | nil => rfl
  | cons file moved ih =>
    rw [map_cons, mem_cons, not_or] at hname
    rw [overlay, foldl_cons]
    exact (ih hname.2).trans (AList.lookup_insert_ne hname.1)

/-- The overlay and the files go together: each moved file is one that is there. -/
theorem lookup_moved {moved : List FileMeta} {files : AList fun _ : String => Option FileMeta}
    {base current : List FileMeta}
    (hagrees : ∀ name, (files.lookup name).elim (lookupBy FileMeta.name name base) id =
      lookupBy FileMeta.name name current)
    (hcurrent : ∀ file ∈ moved, file.name ∈ current.map (·.name)) (name : String) :
    ((overlay moved files).lookup name).elim (lookupBy FileMeta.name name base) id =
      lookupBy FileMeta.name name
        (moved.foldl (fun files moved => replaceBy FileMeta.name moved files) current) := by
  induction moved generalizing files current with
  | nil => exact hagrees name
  | cons file moved ih =>
    obtain ⟨hfile, hmoved⟩ := forall_mem_cons.1 hcurrent
    have hcurrent' : ∀ f ∈ moved, f.name ∈ (replaceBy FileMeta.name file current).map (·.name) := by
      rw [map_replaceBy]
      exact hmoved
    refine ih (fun name' => ?_) hcurrent'
    rw [lookup_insert_ite, lookupBy_replaceBy, ← hagrees]
    split_ifs with heq
    · obtain ⟨f, hf⟩ := isSome_iff_exists.1 (lookupBy_isSome.2 hfile)
      rw [hagrees, heq, hf]
      rfl
    · rfl

theorem Tracks.moveSsts (h : v.Tracks confirmed) {captured : List FileMeta} {target : ℕ}
    (hv' : v.moveSsts captured target = .ok v') : v'.Tracks confirmed ∧ v'.base = v.base := by
  obtain ⟨reflected, hmove, hv'⟩ := except_bind_eq_ok.1 hv'
  cases reflected with
  | true =>
    cases hv'
    exact ⟨h, rfl⟩
  | false =>
    obtain ⟨v₁, hfiles, hv'⟩ := except_bind_eq_ok.1 hv'
    cases hv'
    obtain ⟨rfl, hknown⟩ := moveFiles_eq hfiles
    obtain ⟨first, haccepted⟩ := accepted_of_validateSstMove hmove
    have hcurrent : ∀ file ∈ captured.map fun file => { file with level := target },
        file.name ∈ v.manifest.files.map (·.name) := by
      intro file hfile
      obtain ⟨original, horiginal, rfl⟩ := mem_map.1 hfile
      obtain ⟨current, hcaptured⟩ := haccepted.live original horiginal
      have hfound : lookupBy FileMeta.name original.name v.currentFiles = some current :=
        hcaptured.found
      obtain ⟨hmem, hname⟩ := of_lookupBy hfound
      change original.name ∈ _
      rw [← hname, ← lookupBy_isSome, ← h.agrees.file]
      exact file_isSome_of_mem_currentFiles h hmem
    refine ⟨h.record rfl rfl (fun file hfile => ?_) ⟨h.agrees.frontier, h.agrees.family,
      lookup_moved h.agrees.file hcurrent, fun name hretired => ?_⟩, rfl⟩
    · obtain ⟨original, horiginal, rfl⟩ := mem_map.1 hfile
      obtain ⟨frontier, hfrontier⟩ := hknown original horiginal
      exact isSome_iff_exists.2 ⟨frontier, h.find?_of_frontier hfrontier⟩
    · -- A retired file is not one of the files, so it has not been moved.
      obtain ⟨file, hfile⟩ := isSome_iff_exists.1 hretired
      have hnot := (h.valid.retired name file hfile).2.1
      have hunmoved : name ∉ (captured.map fun file => { file with level := target }).map
          FileMeta.name := by
        intro hmem
        obtain ⟨f, hf, rfl⟩ := mem_map.1 hmem
        exact hnot (hcurrent f hf)
      refine (h.agrees.retired name hretired).imp_right fun hnone => ?_
      exact (lookup_overlay hunmoved).trans hnone

theorem Tracks.completeSstDelete (h : v.Tracks confirmed) {file : FileMeta}
    (hconfirmed : confirmed file.name) (hv' : v.completeSstDelete file = .ok v') :
    v'.Tracks confirmed ∧ v'.base = v.base := by
  obtain ⟨_, -, hv'⟩ := except_bind_eq_ok.1 hv'
  cases hbase : v.base.retiredSsts.lookup file.name with
  | none =>
    rw [hbase] at hv'
    cases hv'
    exact ⟨h, rfl⟩
  | some original =>
    rw [hbase] at hv'
    obtain ⟨_, -, hv'⟩ := except_bind_eq_ok.1 hv'
    cases hv'
    refine ⟨h.record rfl rfl hconfirmed ⟨h.agrees.frontier, h.agrees.family, h.agrees.file,
      fun name hretired => ?_⟩, rfl⟩
    by_cases heq : name = file.name
    · subst heq
      rw [Manifest.commitStep, AList.lookup_erase] at hretired
      cases hretired
    · rw [Manifest.commitStep, AList.lookup_erase_ne heq] at hretired
      exact h.agrees.retired name hretired

/-! ## Reclaiming, and counters -/

/-- Only the names of the SSTs of a family change while they are removed. -/
theorem Tracks.reclaimNames (h : v.Tracks confirmed) {id : ℕ} {family : ColumnFamilyMeta}
    {names : List String} {r : EditValidator × ColumnFamilyMeta}
    (hr : reclaimNames id v family names = .ok r) :
    r.1.Tracks confirmed ∧
      (∃ names' ⊆ family.droppedSstNames, r.2 = { family with droppedSstNames := names' }) ∧
      r.1.base = v.base ∧ r.1.families = v.families ∧ r.1.frontiers = v.frontiers := by
  induction names generalizing v family with
  | nil =>
    cases hr
    exact ⟨h, ⟨_, List.Subset.refl _, rfl⟩, rfl, rfl, rfl⟩
  | cons name names ih =>
    obtain ⟨_, -, hr⟩ := except_bind_eq_ok.1 hr
    obtain ⟨htracks, ⟨names', hsubset, hfamily⟩, hrest⟩ := ih (h.remove name) hr
    exact ⟨htracks, ⟨names', fun n hn => mem_of_mem_filter (hsubset hn), hfamily⟩, hrest⟩

theorem Tracks.reclaimFamily (h : v.Tracks confirmed) {id : ℕ} {names : List String}
    (hv' : v.reclaimFamily id names = .ok v') : v'.Tracks confirmed ∧ v'.base = v.base := by
  simp only [EditValidator.reclaimFamily, except_bind_eq_ok, elim_error_eq_ok, ensure_eq_ok] at hv'
  obtain ⟨_, hfrontier, _, rfl, family, hfamily, ⟨v₁, family'⟩, hreclaimed, hv'⟩ := hv'
  cases hv'
  obtain ⟨htracks, ⟨names', hsubset, rfl⟩, hbase, hfamilies, hfrontiers⟩ :=
    h.reclaimNames hreclaimed
  simp only at htracks hbase hfamilies hfrontiers
  have hfamily₁ : v₁.family id = some family := by
    rw [EditValidator.family, hfamilies, hbase]
    exact hfamily
  have hfrontier₁ : v₁.frontier id = .ok .dropped := by
    rw [EditValidator.frontier, hfrontiers, hbase]
    exact hfrontier
  obtain ⟨hmem, hid⟩ := htracks.mem_of_family hfamily₁
  have hfind := htracks.find?_of_frontier hfrontier₁
  have hsame := htracks.allows_same hmem (hid ▸ hfind)
  have hagrees := hsame.agrees
  simp only [Manifest.lifecycleAgrees, Bool.and_eq_true] at hagrees
  have hdeleted : family.deletedAt.isSome := by simpa using hagrees.1.1.1
  have hallows : v₁.manifest.AllowsFamily
      { family with droppedSstNames := names', reclaimed := names'.isEmpty } .dropped := by
    refine ⟨trivial, hsame.id_ne, hsame.name_ne, ?_, fun n hn => hsame.names n (hsubset hn),
      fun hlive => ?_, hsame.advances, hsame.tombstone⟩
    · have hsequence : family.dropSequence.isSome := by simpa [hdeleted] using hagrees.1.2
      simp [Manifest.lifecycleAgrees, hdeleted, hsequence]
    · exact absurd hlive (isSome_iff_ne_none.1 hdeleted)
  cases hid
  refine ⟨htracks.record rfl rfl hallows ⟨fun id => ?_, htracks.agrees.insert_family
    { family with droppedSstNames := names', reclaimed := names'.isEmpty }, htracks.agrees.file,
    htracks.agrees.retired⟩, hbase⟩
  change v₁.frontier id = get (v₁.manifest.flushedThrough.setValidated family.id .dropped) id
  rw [get_setValidated hallows.proper]
  split_ifs with heq
  · rw [heq, hfrontier₁]
  · exact htracks.agrees.frontier id

theorem Tracks.advanceFlushFrontier (h : v.Tracks confirmed) {cfId freezeSequence : ℕ}
    (hv' : v.advanceFlushFrontier cfId freezeSequence = .ok v') :
    v'.Tracks confirmed ∧ v'.base = v.base := by
  obtain ⟨frontier, hfrontier, hv'⟩ := except_bind_eq_ok.1 hv'
  cases frontier with
  | dropped => cases hv'
  | live current =>
    simp only [except_bind_eq_ok, ensure_eq_ok] at hv'
    obtain ⟨_, ⟨hmax, hle⟩, _, -, hv'⟩ := hv'
    cases hv'
    have hproper : FlushFrontiers.Proper (.live freezeSequence) := hmax
    exact ⟨h.record rfl rfl ⟨current, freezeSequence, rfl, hmax, h.find?_of_frontier hfrontier, hle⟩
      ⟨h.agrees.insert_frontier hproper _, h.agrees.family, h.agrees.file, h.agrees.retired⟩, rfl⟩

theorem Tracks.bumpNextSstSeq (h : v.Tracks confirmed) {cfId nextSeq : ℕ}
    (hv' : v.bumpNextSstSeq cfId nextSeq = .ok v') : v'.Tracks confirmed ∧ v'.base = v.base := by
  obtain ⟨frontier, hfrontier, hv'⟩ := except_bind_eq_ok.1 hv'
  cases hv'
  refine ⟨h.record rfl rfl ?_ ⟨h.agrees.frontier, h.agrees.family, h.agrees.file,
    h.agrees.retired⟩, rfl⟩
  exact isSome_iff_exists.2 ⟨frontier, h.find?_of_frontier hfrontier⟩

/-! ## Edits -/

/-- What the validator knows after an edit that it accepts. -/
structure Accepts (v v' : EditValidator) (leaves : List ManifestEdit)
    (confirmed : String → Prop) : Prop where
  tracks : v'.Tracks confirmed
  base : v'.base = v.base
  /-- No name that the manifest has as retired is added. -/
  added : ∀ file, .addSst file ∈ leaves → v.base.retiredSsts.lookup file.name = none

theorem Accepts.of_single {edit : ManifestEdit} (h : v'.Tracks confirmed ∧ v'.base = v.base)
    (hedit : ∀ file, edit ≠ .addSst file) : v.Accepts v' [edit] confirmed :=
  ⟨h.1, h.2, fun file hmem => absurd (mem_singleton.1 hmem).symm (hedit file)⟩

mutual

theorem Tracks.apply (edit : ManifestEdit) {now : ℕ} {v v' : EditValidator}
    (h : v.Tracks confirmed) (hnames : edit.validateForAppend = .ok ())
    (hconfirms : ∀ file, .completeSstDelete file ∈ edit.leaves → confirmed file.name)
    (hv' : v.apply now edit = .ok v') : v.Accepts v' edit.leaves confirmed := by
  cases edit with
  | addSst file =>
    rw [ManifestEdit.validateForAppend, parseSstName, ensure_eq_ok] at hnames
    obtain ⟨htracks, hbase⟩ := h.addSst hnames hv'
    refine ⟨htracks, hbase, fun file' hmem => ?_⟩
    cases mem_singleton.1 hmem
    simp only [EditValidator.apply, EditValidator.addSst, except_bind_eq_ok, ensure_eq_ok] at hv'
    obtain ⟨_, ⟨hnone, -⟩, -⟩ := hv'
    exact isNone_iff_eq_none.1 hnone
  | removeSst name =>
    cases hv'
    exact .of_single ⟨h.remove name, rfl⟩ (by simp)
  | moveSsts captured target => exact .of_single (h.moveSsts hv') (by simp)
  | completeSstDelete file =>
    exact .of_single (h.completeSstDelete (hconfirms file (mem_singleton.2 rfl)) hv') (by simp)
  | createColumnFamily id name createdAt => exact .of_single (h.createFamily hv') (by simp)
  | dropColumnFamilyAt id dropSequence names =>
    simp only [ManifestEdit.validateForAppend, except_forM_eq_ok, parseSstName, ensure_eq_ok]
      at hnames
    exact .of_single (h.dropFamily hnames hv') (by simp)
  | reclaimColumnFamily id names => exact .of_single (h.reclaimFamily hv') (by simp)
  | advanceFlushFrontier cfId freezeSequence =>
    exact .of_single (h.advanceFlushFrontier hv') (by simp)
  | bumpNextSstSeq cfId nextSeq => exact .of_single (h.bumpNextSstSeq hv') (by simp)
  | batch edits => exact Tracks.applyAll edits h hnames hconfirms hv'

theorem Tracks.applyAll (edits : List ManifestEdit) {now : ℕ} {v v' : EditValidator}
    (h : v.Tracks confirmed) (hnames : ManifestEdit.validateAllForAppend edits = .ok ())
    (hconfirms : ∀ file, .completeSstDelete file ∈ leavesOf edits →
      confirmed file.name)
    (hv' : v.applyAll now edits = .ok v') :
    v.Accepts v' (ManifestEdit.leavesOf edits) confirmed := by
  cases edits with
  | nil =>
    cases hv'
    exact ⟨h, rfl, by simp [ManifestEdit.leavesOf]⟩
  | cons edit edits =>
    obtain ⟨⟨⟩, hname, hnames⟩ := except_bind_eq_ok.1 hnames
    obtain ⟨v₁, hv₁, hv'⟩ := except_bind_eq_ok.1 hv'
    obtain ⟨htracks₁, hbase₁, hadded₁⟩ := Tracks.apply edit h hname
      (fun file hmem => hconfirms file (mem_append_left _ hmem)) hv₁
    obtain ⟨htracks, hbase, hadded⟩ := Tracks.applyAll edits htracks₁ hnames
      (fun file hmem => hconfirms file (mem_append_right _ hmem)) hv'
    refine ⟨htracks, hbase.trans hbase₁, fun file hmem => ?_⟩
    rcases mem_append.1 hmem with hmem | hmem
    exacts [hadded₁ file hmem, hbase₁ ▸ hadded file hmem]

end

end EditValidator

/-! ## Histories -/

namespace Manifest

variable {manifest manifest' : Manifest} {now : ℕ} {edit : ManifestEdit}

theorem prepareEdit_spec (hvalid : manifest.Valid) {steps : List ManifestStep}
    (h : manifest.prepareEdit now edit = .ok steps) :
    (steps.foldl commitStep manifest).Valid ∧
      manifest.Succeeds (steps.foldl commitStep manifest) edit.confirms ∧
      ∀ file, .addSst file ∈ edit.leaves → manifest.retiredSsts.lookup file.name = none := by
  obtain ⟨⟨⟩, hnames, h⟩ := except_bind_eq_ok.1 h
  obtain ⟨_, -, h⟩ := except_bind_eq_ok.1 h
  obtain ⟨v, hv, h⟩ := except_bind_eq_ok.1 h
  cases h
  have hnew : (EditValidator.new manifest).Tracks edit.confirms := EditValidator.tracks_new hvalid
  obtain ⟨htracks, hbase, hadded⟩ := hnew.apply edit hnames (fun file hmem => ⟨file, hmem, rfl⟩) hv
  have hmanifest : v.steps.foldl commitStep manifest = v.manifest := by
    rw [EditValidator.manifest, hbase]
    rfl
  rw [hmanifest]
  have hsucceeds := htracks.succeeds
  rw [hbase] at hsucceeds
  exact ⟨htracks.valid, hsucceeds, hadded⟩

theorem atomic_applyEdit : (applyEdit now edit).Atomic :=
  atomic_get_bind fun _ => atomic_check_bind fun _ =>
    (total_modify _).atomic

/-- The state after a sequence of edits, each with its time. -/
def applyEdits (manifest : Manifest) (edits : List (ℕ × ManifestEdit)) : Manifest :=
  Update.runAll (fun edit => applyEdit edit.1 edit.2) manifest edits

/-- Some of the edits confirms that the file has been deleted. -/
def confirmedBy (edits : List (ℕ × ManifestEdit)) (name : String) : Prop :=
  ∃ edit ∈ edits, edit.2.confirms name

theorem applyEdits_spec (hvalid : manifest.Valid) (edits : List (ℕ × ManifestEdit)) :
    (manifest.applyEdits edits).Valid ∧
      manifest.Succeeds (manifest.applyEdits edits) (confirmedBy edits) := by
  induction edits generalizing manifest with
  | nil => exact ⟨hvalid, .refl⟩
  | cons edit edits ih =>
    have hstep : ((applyEdit edit.1 edit.2).after manifest).Valid ∧
        manifest.Succeeds ((applyEdit edit.1 edit.2).after manifest) edit.2.confirms := by
      cases happly : applyEdit edit.1 edit.2 manifest with
      | error e s =>
        rw [atomic_applyEdit.after_of_error happly]
        exact ⟨hvalid, .refl⟩
      | ok u s =>
        rw [after_of_ok happly]
        simp only [applyEdit, get_bind_eq_ok, check_bind_eq_ok,
          modify_eq_ok] at happly
        obtain ⟨steps, hsteps, rfl⟩ := happly
        obtain ⟨hvalid', hsucceeds, -⟩ := prepareEdit_spec hvalid hsteps
        exact ⟨hvalid', hsucceeds⟩
    obtain ⟨hvalid', hsucceeds⟩ := ih hstep.1
    refine ⟨hvalid', (hstep.2.imp fun name h => ⟨edit, .head _, h⟩).trans
      (hsucceeds.imp fun name h => ?_)⟩
    obtain ⟨e, he, hname⟩ := h
    exact ⟨e, .tail _ he, hname⟩

/-- An edit of a valid manifest fails and changes nothing, or leads to a valid manifest
    that may follow, and adds no file under the name of a retired one. In the history
    after a manifest, what has been dropped is never there again, and a file that has
    been retired only after its deletion has been confirmed. -/
theorem applyEdit_spec (manifest : Manifest) (hvalid : manifest.validatePersisted = .ok ()) :
    (∀ now edit, (applyEdit now edit).Yields manifest
      (fun _ manifest' => manifest'.validatePersisted = .ok () ∧
        manifest.Succeeds manifest' edit.confirms ∧
        ∀ file, .addSst file ∈ edit.leaves → (manifest.retiredSsts.lookup file.name).isNone)
      fun _ manifest' => manifest' = manifest) ∧
    ∀ edits, (manifest.applyEdits edits).validatePersisted = .ok () ∧
      manifest.Succeeds (manifest.applyEdits edits) (confirmedBy edits) ∧
      ∀ name, (manifest.retiredSsts.lookup name).isSome → ¬ confirmedBy edits name →
        name ∉ (manifest.applyEdits edits).files.map (·.name) := by
  have hvalid' := validatePersisted_eq_ok.1 hvalid
  refine ⟨fun now edit => ?_, fun edits => ?_⟩
  · refine yields_bind (yields_get (yields_bind (yields_check
      (fun steps hsteps => yields_modify ?_) fun _ _ => rfl)))
    obtain ⟨hnew, hsucceeds, hadded⟩ := prepareEdit_spec hvalid' hsteps
    exact ⟨validatePersisted_eq_ok.2 hnew, hsucceeds,
      fun file hmem => isNone_iff_eq_none.2 (hadded file hmem)⟩
  · obtain ⟨hnew, hsucceeds⟩ := applyEdits_spec hvalid' edits
    refine ⟨validatePersisted_eq_ok.2 hnew, hsucceeds, fun name hretired hnot => ?_⟩
    obtain ⟨file, hfile⟩ := isSome_iff_exists.1
      ((hsucceeds.retired name hretired).resolve_right hnot)
    exact (hnew.retired name file hfile).2.1

/-- The file of the examples below. -/
def firstFile : FileMeta := { name := "1.sst", level := 0 }

/-- The manifest with that file. -/
def withFirstFile : Manifest := initial.addFile firstFile

/-- A file cannot come back under the name of one whose deletion is still owed. -/
theorem retired_name_stays_out :
    (withFirstFile.applyEdits [(0, .removeSst "1.sst")]).validatePersisted = .ok () ∧
      "1.sst" ∉ ((withFirstFile.applyEdits [(0, .removeSst "1.sst")]).applyEdits
        [(0, .addSst firstFile)]).files.map (·.name) := by
  refine ⟨rfl, ((applyEdit_spec _ rfl).2 _).2.2 "1.sst" rfl ?_⟩
  rintro ⟨edit, hedit, file, hfile, -⟩
  cases mem_singleton.1 hedit
  simp [leaves] at hfile

/-- Once its deletion has been confirmed, a retired file is forgotten, and another one
    may have its name. -/
theorem retired_name_added_again :
    withFirstFile.validatePersisted = .ok () ∧
      ((withFirstFile.applyEdits [(0, .removeSst "1.sst")]).retiredSsts.lookup "1.sst").isSome ∧
      applyEdit 0 (.addSst { firstFile with sizeBytes := 7 })
          (withFirstFile.applyEdits [(0, .removeSst "1.sst"), (0, .completeSstDelete firstFile)]) =
        .ok () (initial.addFile { firstFile with sizeBytes := 7 }) := by
  refine ⟨?_, ?_, ?_⟩ <;> rfl

end Manifest

end Midge
