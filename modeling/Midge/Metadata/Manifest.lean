import Midge.Lib.Keyed
import Midge.Lib.Update
import Midge.Metadata.Moves

/-!
# The manifest and its edits

The manifest is the source of truth for the SST files and the column families. It has,
for each family, the sequence up to which the family has been flushed; a dropped family
keeps its entry for ever, so that its id is not used again.

An edit is validated as a whole before any part of it is applied. The validator goes
through the parts of a batch one after the other, against the manifest as the parts
before would leave it: it keeps what they have changed in overlays, and records the
steps to be taken (`EditValidator`). The steps are then committed, and none of them can
fail.
-/

namespace Midge

/-! ## Flush frontiers -/

/-- How far a family has been flushed. -/
inductive FamilyFrontier
  | live (throughSequence : ℕ)
  | dropped
  deriving DecidableEq, Repr

/-- The frontier of a sequence: the greatest one is that of the dropped families. -/
def FamilyFrontier.ofSequence (sequence : ℕ) : FamilyFrontier :=
  if sequence = usizeMax then .dropped else .live sequence

def FamilyFrontier.sequence : FamilyFrontier → ℕ
  | .live throughSequence => throughSequence
  | .dropped => usizeMax

/-- The flush frontiers of all families. -/
structure FlushFrontiers where
  through : AList fun _ : ℕ => ℕ
  deriving DecidableEq

namespace FlushFrontiers

/-- Only the default family is there. -/
def initial : FlushFrontiers := ⟨AList.singleton 0 0⟩

variable (frontiers : FlushFrontiers)

def find? (cfId : ℕ) : Option FamilyFrontier :=
  (frontiers.through.lookup cfId).map FamilyFrontier.ofSequence

/-- Look up the frontier of a family. -/
def get (cfId : ℕ) : MidgeResult FamilyFrontier :=
  (frontiers.find? cfId).elim
    (.error (.corruption s!"flush frontier is missing for family {cfId}")) .ok

/-- Whether the frontier of a family may go from one value to another. -/
def advances : FamilyFrontier → FamilyFrontier → Bool
  | _, .dropped => true
  | .live old, .live new => decide (old ≤ new)
  | .dropped, .live _ => false

/-- Check that no family disappears, regresses or revives. -/
def dominates (previous : FlushFrontiers) : MidgeResult Unit :=
  previous.through.entries.forM fun entry => do
    let new ← frontiers.get entry.1
    ensure (advances (.ofSequence entry.2) new)
      (.corruption s!"flush frontier regressed for family {entry.1}")

def setValidated (cfId : ℕ) (value : FamilyFrontier) : FlushFrontiers :=
  ⟨frontiers.through.insert cfId value.sequence⟩

end FlushFrontiers

/-! ## The manifest -/

/-- A column family. -/
structure ColumnFamilyMeta where
  id : ℕ
  name : String
  createdAt : ℕ
  deletedAt : Option ℕ
  /-- The sequence at which the family became invisible. -/
  dropSequence : Option ℕ
  /-- The SSTs that the family had when it was dropped. -/
  droppedSstNames : List String
  /-- Whether these have been removed. -/
  reclaimed : Bool
  deriving DecidableEq, Repr

/-- The manifest. -/
structure Manifest where
  flushedThrough : FlushFrontiers
  files : List FileMeta
  /-- Removed SSTs whose deletion has not been confirmed. -/
  retiredSsts : AList fun _ : String => FileMeta
  columnFamilies : List ColumnFamilyMeta
  nextSstSeqs : AList fun _ : ℕ => ℕ
  /-- The last edit of the journal that the checkpoint includes. -/
  editCheckpointId : ℕ
  deriving DecidableEq

/-- The manifest of a new database. -/
def Manifest.initial : Manifest := ⟨.initial, [], ∅, [], ∅, 0⟩

/-- Whether the name is that of one file with the extension `sst`, without a path. -/
def sstNameValid (name : String) : Bool :=
  name.toList.all (fun c => c ≠ '/' ∧ c ≠ '\\' ∧ c ≠ ':' ∧ c ≠ '\x00') &&
    ['.', 's', 's', 't'].isSuffixOf name.toList && decide (4 < name.toList.length)

/-- Parse the persisted name of an SST. -/
def parseSstName (name : String) : MidgeResult Unit :=
  ensure (sstNameValid name)
    (.corruption s!"invalid persisted SST name '{name}': expected one relative .sst filename")

namespace Manifest

/-- The family and its frontier agree. -/
def lifecycleAgrees (family : ColumnFamilyMeta) (frontier : FamilyFrontier) : Bool :=
  (family.deletedAt.isSome == decide (frontier = .dropped)) &&
    !(family.reclaimed && family.deletedAt.isNone) &&
    !(family.deletedAt.isSome && family.dropSequence.isNone) &&
    !(family.deletedAt.isNone && (family.dropSequence.isSome || !family.droppedSstNames.isEmpty))

/-- Check the families, after those with the ids and the live names. -/
def checkFamilies (frontiers : FlushFrontiers) :
    List ColumnFamilyMeta → List ℕ → List String → MidgeResult Unit
  | [], _, _ => .ok ()
  | family :: families, ids, names => do
    ensure (family.id ≠ 0 ∧ family.name ≠ "default" ∧ family.id ∉ ids)
      (invalidTransition "duplicate or explicit default family")
    let frontier ← frontiers.get family.id
    ensure (lifecycleAgrees family frontier)
      (invalidTransition "family lifecycle and flush frontier disagree")
    ensure (family.deletedAt = none → family.name ∉ names)
      (invalidTransition "duplicate live family name")
    family.droppedSstNames.forM parseSstName
    checkFamilies frontiers families (family.id :: ids)
      (if family.deletedAt = none then family.name :: names else names)

/-- Check the files, after those with the names. -/
def checkFiles (frontiers : FlushFrontiers) : List FileMeta → List String → MidgeResult Unit
  | [], _ => .ok ()
  | file :: files, names => do
    (parseSstName file.name).mapError fun error =>
      invalidTransition s!"manifest SST name is invalid: {error.display}"
    ensure (file.name ∉ names) (invalidTransition "duplicate SST name")
    let _ ← frontiers.get file.cfId
    checkFiles frontiers files (file.name :: names)

/-- Validate the manifest. -/
def validatePersisted (manifest : Manifest) : MidgeResult Unit := do
  checkFamilies manifest.flushedThrough manifest.columnFamilies [] []
  manifest.flushedThrough.through.entries.forM fun entry =>
    ensure (entry.1 ≠ 0 → entry.1 ∈ manifest.columnFamilies.map (·.id))
      (invalidTransition "orphan flush frontier")
  checkFiles manifest.flushedThrough manifest.files []
  manifest.retiredSsts.entries.forM fun entry => do
    ensure (entry.1 = entry.2.name ∧ entry.1 ∉ manifest.files.map (·.name))
      (invalidTransition "retired SST overlaps active authority")
    parseSstName entry.1
    let _ ← manifest.flushedThrough.get entry.2.cfId
  manifest.nextSstSeqs.entries.forM fun entry => do
    let _ ← manifest.flushedThrough.get entry.1

/-- Add a file. -/
def addFile (manifest : Manifest) (file : FileMeta) : Manifest :=
  { manifest with files := upsert FileMeta.name file manifest.files }

/-- Remove a file; its deletion is owed from then on. -/
def removeFile (manifest : Manifest) (name : String) : Manifest :=
  { manifest with
    retiredSsts := (lookupBy FileMeta.name name manifest.files).elim manifest.retiredSsts
      fun file => manifest.retiredSsts.insert name file
    files := manifest.files.filter (·.name ≠ name) }

/-- Record that the manifest has applied an edit of the journal. The horizon only goes
    to the next edit: with a gap, there is an edit that the manifest may not have. -/
def noteAppliedJournalEdit (manifest : Manifest) (editId : ℕ) : Manifest :=
  if manifest.editCheckpointId + 1 ≤ usizeMax ∧ manifest.editCheckpointId + 1 = editId then
    { manifest with editCheckpointId := editId }
  else manifest

end Manifest

/-! ## Edits -/

/-- A change of the manifest. -/
inductive ManifestEdit
  | addSst (file : FileMeta)
  | removeSst (name : String)
  /-- Move files to the next level. -/
  | moveSsts (captured : List FileMeta) (targetLevel : ℕ)
  /-- A removed file has been deleted. -/
  | completeSstDelete (file : FileMeta)
  | createColumnFamily (id : ℕ) (name : String) (createdAt : ℕ)
  | dropColumnFamilyAt (id dropSequence : ℕ) (droppedSstNames : List String)
  /-- Remove the files of a dropped family. -/
  | reclaimColumnFamily (id : ℕ) (names : List String)
  | advanceFlushFrontier (cfId freezeSequence : ℕ)
  | bumpNextSstSeq (cfId nextSeq : ℕ)
  | batch (edits : List ManifestEdit)

namespace ManifestEdit

mutual

/-- The parts of an edit that are not batches, in order. -/
def leaves : ManifestEdit → List ManifestEdit
  | .batch edits => leavesOf edits
  | edit => [edit]

def leavesOf : List ManifestEdit → List ManifestEdit
  | [] => []
  | edit :: edits => leaves edit ++ leavesOf edits

end

mutual

/-- Check the names of the SSTs. -/
def validateForAppend : ManifestEdit → MidgeResult Unit
  | .addSst file | .completeSstDelete file => parseSstName file.name
  | .removeSst name => parseSstName name
  | .moveSsts captured _ => captured.forM fun file => parseSstName file.name
  | .dropColumnFamilyAt _ _ names | .reclaimColumnFamily _ names => names.forM parseSstName
  | .batch edits => validateAllForAppend edits
  | .createColumnFamily _ _ _ | .advanceFlushFrontier _ _ | .bumpNextSstSeq _ _ => .ok ()

def validateAllForAppend : List ManifestEdit → MidgeResult Unit
  | [] => .ok ()
  | edit :: edits => do
    validateForAppend edit
    validateAllForAppend edits

end

/-- The file that an edit adds to a family. -/
def addedTo (cfId : ℕ) : ManifestEdit → Option FileMeta
  | .addSst file => if file.cfId = cfId then some file else none
  | _ => none

def isBatch : ManifestEdit → Bool
  | .batch _ => true
  | _ => false

def removes (names : List String) : ManifestEdit → Bool
  | .removeSst name => decide (name ∈ names)
  | _ => false

def advancesFamily (cfId : ℕ) : ManifestEdit → Bool
  | .advanceFlushFrontier earlier _ => decide (earlier = cfId)
  | _ => false

/-- Check one part of an edit, after the parts `before`. -/
def checkPairing (edit : ManifestEdit) (before : List ManifestEdit) :
    ManifestEdit → MidgeResult Unit
  | .advanceFlushFrontier cfId freezeSequence => do
    let additions := before.filterMap (addedTo cfId)
    ensure (edit.isBatch ∧ freezeSequence ≠ usizeMax ∧ additions ≠ [] ∧
        additions.all fun file => file.largestSeq.any (· ≤ freezeSequence))
      (.corruption "flush frontier must follow its SST in the same outer manifest batch")
    ensure (¬ edit.leaves.any (removes (additions.map (·.name))))
      (.corruption "flush batch removes its paired SST")
    ensure (¬ before.any (advancesFamily cfId))
      (.corruption "flush batch advances one family more than once")
  | _ => .ok ()

/-- A flush frontier comes in one batch with the SST that it is for: after it, and once
    for a family. -/
def checkFlushPairing (edit : ManifestEdit) : MidgeResult Unit :=
  edit.leaves.zipIdx.forM fun leaf => checkPairing edit (edit.leaves.take leaf.2) leaf.1

end ManifestEdit

/-! ## Committing -/

/-- A step of an edit that has been validated. -/
inductive ManifestStep
  | add (file : FileMeta)
  | remove (name : String)
  | move (files : List FileMeta)
  | deleted (name : String)
  | family (family : ColumnFamilyMeta) (frontier : FamilyFrontier)
  | frontier (id : ℕ) (value : FamilyFrontier)
  | next (id next : ℕ)

/-- Commit one step. -/
def Manifest.commitStep (manifest : Manifest) : ManifestStep → Manifest
  | .add file => manifest.addFile file
  | .remove name => manifest.removeFile name
  | .move files => { manifest with
      files := files.foldl (fun files moved => replaceBy FileMeta.name moved files) manifest.files }
  | .deleted name => { manifest with retiredSsts := manifest.retiredSsts.erase name }
  | .family family frontier => { manifest with
      flushedThrough := manifest.flushedThrough.setValidated family.id frontier
      columnFamilies := upsert ColumnFamilyMeta.id family manifest.columnFamilies }
  | .frontier id value =>
    { manifest with flushedThrough := manifest.flushedThrough.setValidated id value }
  | .next id next => { manifest with nextSstSeqs := manifest.nextSstSeqs.insert id next }

/-! ## Validating -/

/-- The validation of an edit: the manifest, what the parts so far have changed, and the
    steps to be taken. -/
structure EditValidator where
  base : Manifest
  families : AList fun _ : ℕ => ColumnFamilyMeta
  frontiers : AList fun _ : ℕ => FamilyFrontier
  files : AList fun _ : String => Option FileMeta
  counters : AList fun _ : ℕ => ℕ
  steps : List ManifestStep

/-- The family that a decision to create one makes of the one that is there. -/
def planCreate (id : ℕ) (name : String) (createdAt : ℕ) (existing : Option ColumnFamilyMeta)
    (liveNames : List (ℕ × String)) : MidgeResult ColumnFamilyMeta := do
  ensure (id ≠ 0 ∧ name ≠ "default" ∧ ¬ liveNames.any fun live =>
      decide (live.1 ≠ id ∧ live.2 = name))
    (invalidTransition "default or duplicate live family name")
  match existing with
  | some existing =>
    -- Only the exact original identity is idempotent.
    if existing.name = name ∧ existing.createdAt = createdAt then return existing
    else .error (invalidTransition s!"family id {id} cannot be reused")
  | none => return ⟨id, name, createdAt, none, none, [], false⟩

/-- The family that a decision to drop one makes of the one that is there. -/
def planDrop (now : ℕ) (id dropSequence : ℕ) (droppedSstNames : List String)
    (existing : Option ColumnFamilyMeta) : MidgeResult ColumnFamilyMeta := do
  let existing ← existing.elim (.error (invalidTransition s!"unknown family {id}")) .ok
  ensure (id ≠ 0) (invalidTransition "default family cannot be dropped")
  if existing.deletedAt.isSome then
    if existing.dropSequence = some dropSequence then return existing
    else .error (invalidTransition s!"conflicting drop for family {id}")
  else return { existing with
    deletedAt := some now
    dropSequence := some dropSequence
    droppedSstNames
    reclaimed := false }

namespace EditValidator

def new (base : Manifest) : EditValidator := ⟨base, ∅, ∅, ∅, ∅, []⟩

variable (v : EditValidator)

def frontier (id : ℕ) : MidgeResult FamilyFrontier :=
  (v.frontiers.lookup id).elim (v.base.flushedThrough.get id) .ok

def family (id : ℕ) : Option ColumnFamilyMeta :=
  (v.families.lookup id).or (lookupBy ColumnFamilyMeta.id id v.base.columnFamilies)

def file (name : String) : Option FileMeta :=
  (v.files.lookup name).elim (lookupBy FileMeta.name name v.base.files) id

/-- The families that are live, with their names. -/
def liveNames : List (ℕ × String) :=
  ((v.families.entries.map (·.2) ++
    v.base.columnFamilies.filter fun family => (v.families.lookup family.id).isNone).filter
      (·.deletedAt.isNone)).map fun family => (family.id, family.name)

def pushFamily (id : ℕ) (family : ColumnFamilyMeta) (frontier : FamilyFrontier) :
    EditValidator :=
  { v with
    families := v.families.insert id family
    frontiers := v.frontiers.insert id frontier
    steps := v.steps ++ [.family family frontier] }

def createFamily (id : ℕ) (name : String) (createdAt : ℕ) : MidgeResult EditValidator :=
  if (v.family id).any fun existing => existing.deletedAt.isSome &&
      decide (existing.name = name) && decide (existing.createdAt = createdAt) then
    -- The original edit may be replayed after the family has been dropped.
    .ok v
  else do
    let family ← planCreate id name createdAt (v.family id) v.liveNames
    let frontier ← if (v.family id).isSome then v.frontier id else .ok (.live 0)
    ensure (frontier ≠ .dropped) (invalidTransition "dropped family cannot be revived")
    return v.pushFamily id family frontier

/-- The files of a family, as the edit leaves them so far. -/
def namesOf (id : ℕ) : List String :=
  let base := v.base.files.filter fun file => decide (file.cfId = id) && (v.file file.name).isSome
  let changed := (v.files.entries.filterMap (·.2)).filter fun file => decide (file.cfId = id)
  ((base ++ changed).map (·.name)).mergeSort (· ≤ ·) |>.destutter (· ≠ ·)

/-- The file is not one of another family. -/
def ownedBy (id : ℕ) (name : String) : Prop := ∀ file ∈ v.file name, file.cfId = id

instance (id : ℕ) (name : String) : Decidable (v.ownedBy id name) :=
  inferInstanceAs (Decidable (∀ file ∈ v.file name, file.cfId = id))

def dropFamily (now : ℕ) (id dropSequence : ℕ) (droppedSstNames : List String) :
    MidgeResult EditValidator := do
  let _ ← v.frontier id
  let names := if droppedSstNames = [] then v.namesOf id else droppedSstNames
  names.forM fun name => ensure (v.ownedBy id name)
    (invalidTransition "drop references another family's SST")
  let family ← planDrop now id dropSequence names (v.family id)
  return v.pushFamily id family .dropped

/-- Remove the files of a family one after the other. -/
def reclaimNames (id : ℕ) : EditValidator → ColumnFamilyMeta → List String →
    MidgeResult (EditValidator × ColumnFamilyMeta)
  | v, family, [] => .ok (v, family)
  | v, family, name :: names => do
    ensure (v.ownedBy id name) (invalidTransition "reclaim references another family's SST")
    let family := { family with droppedSstNames := family.droppedSstNames.filter (· ≠ name) }
    reclaimNames id { v with
      files := v.files.insert name none
      steps := v.steps ++ [.remove name] } family names

def reclaimFamily (id : ℕ) (names : List String) : MidgeResult EditValidator := do
  let frontier ← v.frontier id
  ensure (frontier = .dropped) (invalidTransition "cannot reclaim live family")
  let family ← (v.family id).elim (.error (invalidTransition "unknown reclaim family")) .ok
  let reclaimed ← reclaimNames id v family names
  let family := { reclaimed.2 with reclaimed := reclaimed.2.droppedSstNames.isEmpty }
  return { reclaimed.1 with
    families := reclaimed.1.families.insert id family
    steps := reclaimed.1.steps ++ [.family family .dropped] }

def addSst (file : FileMeta) : MidgeResult EditValidator := do
  ensure ((v.base.retiredSsts.lookup file.name).isNone ∧ v.files.lookup file.name ≠ some none)
    (invalidTransition "cannot reuse a retired SST identity")
  let frontier ← v.frontier file.cfId
  ensure (frontier ≠ .dropped) (invalidTransition "cannot add SST to dropped family")
  ensure (∀ old ∈ v.file file.name, sameIdentity old file)
    (invalidTransition s!"conflicting SST identity {file.name}")
  return { v with
    files := v.files.insert file.name (some file)
    steps := v.steps ++ [.add file] }

/-- The files, as the edit leaves them so far. -/
def currentFiles : List FileMeta :=
  v.base.files.filter (fun file => (v.files.lookup file.name).isNone) ++
    v.files.entries.filterMap (·.2)

/-- Move the captured files one after the other. -/
def moveFiles (target : ℕ) : EditValidator → List FileMeta → MidgeResult EditValidator
  | v, [] => .ok v
  | v, file :: captured => do
    let frontier ← v.frontier file.cfId
    ensure (frontier ≠ .dropped) (invalidTransition "cannot move SST of dropped family")
    let file := { file with level := target }
    moveFiles target { v with files := v.files.insert file.name (some file) } captured

def moveSsts (captured : List FileMeta) (target : ℕ) : MidgeResult EditValidator := do
  let reflected ← validateSstMove v.currentFiles captured target
  if reflected then return v
  else do
    let v ← moveFiles target v captured
    return { v with
      steps := v.steps ++ [.move (captured.map fun file => { file with level := target })] }

def completeSstDelete (file : FileMeta) : MidgeResult EditValidator := do
  ensure (v.file file.name = none)
    (invalidTransition "cannot confirm deletion of an active SST")
  match v.base.retiredSsts.lookup file.name with
  | none => return v
  | some original =>
    ensure (sameIdentity original file)
      (invalidTransition "delete confirmation differs from retired identity")
    return { v with steps := v.steps ++ [.deleted file.name] }

/-- Whether a step adds a file to the family that the manifest does not have. -/
def publishesNewOutput (cfId : ℕ) : Bool :=
  v.steps.any fun step =>
    match step with
    | .add file => decide (file.cfId = cfId) && decide (file.name ∉ v.base.files.map (·.name))
    | _ => false

def advanceFlushFrontier (cfId freezeSequence : ℕ) : MidgeResult EditValidator := do
  match ← v.frontier cfId with
  | .dropped => .error (invalidTransition "cannot advance dropped family")
  | .live current =>
    ensure (freezeSequence ≠ usizeMax ∧ current ≤ freezeSequence)
      (invalidTransition "reserved or regressing flush frontier")
    ensure (current < freezeSequence → v.publishesNewOutput cfId)
      (invalidTransition "existing SST cannot establish a higher flush frontier")
    return { v with
      frontiers := v.frontiers.insert cfId (.live freezeSequence)
      steps := v.steps ++ [.frontier cfId (.live freezeSequence)] }

def bumpNextSstSeq (cfId nextSeq : ℕ) : MidgeResult EditValidator := do
  let _ ← v.frontier cfId
  let current := ((v.counters.lookup cfId).or (v.base.nextSstSeqs.lookup cfId)).getD 0
  let next := max current nextSeq
  return { v with
    counters := v.counters.insert cfId next
    steps := v.steps ++ [.next cfId next] }

mutual

/-- Validate an edit after those before it; `now` is the time. -/
def apply (now : ℕ) (v : EditValidator) : ManifestEdit → MidgeResult EditValidator
  | .batch edits => applyAll now v edits
  | .addSst file => v.addSst file
  | .moveSsts captured targetLevel => v.moveSsts captured targetLevel
  | .removeSst name => .ok { v with
      files := v.files.insert name none
      steps := v.steps ++ [.remove name] }
  | .completeSstDelete file => v.completeSstDelete file
  | .createColumnFamily id name createdAt => v.createFamily id name createdAt
  | .dropColumnFamilyAt id dropSequence names => v.dropFamily now id dropSequence names
  | .reclaimColumnFamily id names => v.reclaimFamily id names
  | .advanceFlushFrontier cfId freezeSequence => v.advanceFlushFrontier cfId freezeSequence
  | .bumpNextSstSeq cfId nextSeq => v.bumpNextSstSeq cfId nextSeq

/-- Validate the parts of a batch. -/
def applyAll (now : ℕ) (v : EditValidator) : List ManifestEdit → MidgeResult EditValidator
  | [] => .ok v
  | edit :: edits => do
    let v ← apply now v edit
    applyAll now v edits

end

end EditValidator

/-- Validate an edit as a whole; the steps to be taken. -/
def Manifest.prepareEdit (manifest : Manifest) (now : ℕ) (edit : ManifestEdit) :
    MidgeResult (List ManifestStep) := do
  edit.validateForAppend
  edit.checkFlushPairing
  let v ← (EditValidator.new manifest).apply now edit
  return v.steps

/-- Apply an edit. -/
def Manifest.applyEdit (now : ℕ) (edit : ManifestEdit) : Update MidgeError Manifest Unit := do
  let manifest ← get
  let steps ← Update.check (manifest.prepareEdit now edit)
  modify fun manifest => steps.foldl Manifest.commitStep manifest

end Midge
