import Midge.Cloud.MetadataPointer
import Midge.Lib.Exec

/-!
# The history of the metadata pointer

Every write of the pointer has been checked against the version that it replaces: a claim
raises the epoch and keeps the generation, a publication keeps the writer and goes on to the
next generation (`PointerWrite.Follows`). A write only takes effect on that version. So the
versions form one chain, whatever the order in which the requests arrive, and however many
responses are lost (`pointer_history`).
-/

namespace Midge

open Prog List Ensures PointerCall PointerOperation CloudMetadataGeneration

/-! ## Versions -/

/-- The generation that a write publishes. -/
def PointerWrite.publication (write : PointerWrite) : Option CloudMetadataGeneration :=
  match write.author with
  | .publish _ _ _ _ generation => some generation
  | _ => none

/-- The generations that have been published, from the first. -/
def publications (versions : List (PointerWrite × ℕ)) : List CloudMetadataGeneration :=
  versions.filterMap fun version => version.1.publication

/-- The generation that the last version commits. -/
def committedGeneration (versions : List (PointerWrite × ℕ)) : Option CloudMetadataGeneration :=
  versions.getLast?.bind fun version => version.1.pointer.committed

/-- A write that creates the pointer. -/
inductive PointerWrite.Opens : PointerWrite → Prop
  | claim {store : ProviderLeaderStore} {document : LeaseDocument} {pointer : MetadataPointer}
      (hepoch : document.epoch = some pointer.writerEpoch) (hcommitted : pointer.committed = none) :
      Opens ⟨.claim store document, pointer⟩

/-- A write that replaces another. -/
inductive PointerWrite.Follows (old : MetadataPointer) : PointerWrite → Prop
  | claim {store : ProviderLeaderStore} {document : LeaseDocument} {pointer : MetadataPointer}
      (hepoch : document.epoch = some pointer.writerEpoch)
      (hlt : old.writerEpoch < pointer.writerEpoch) (hcommitted : pointer.committed = old.committed) :
      Follows old ⟨.claim store document, pointer⟩
  | publish {store : ProviderLeaderStore} {holderId : String}
      {previous : Option CloudMetadataGeneration} {generation : CloudMetadataGeneration}
      (hne : old.committed ≠ some generation)
      (hsuccessor : generation.validateSuccessor old.committed = .ok ()) :
      Follows old ⟨.publish store holderId old.writerEpoch previous generation,
        { old with committed := some generation }⟩

/-- The history of the pointer is a chain, and the caches hold versions of it. -/
structure PointerWorld.Inv (w : PointerWorld) : Prop where
  guarded : w.object.Guarded PointerWrite.Opens fun a b => b.Follows a.pointer
  caches : ∀ cache pointer metadata, w.caches cache = some (pointer, metadata) →
    w.Holds pointer metadata

/-- The store, where requests that have been sent may arrive at any time. -/
def pointerSemantics : Semantics PointerCall Answer PointerWorld where
  exec _ := PointerWorld.Exec
  env w w' := ∃ object, w.object.Lands object ∧ w' = { w with object := object }
  inv := PointerWorld.Inv
  le w w' := w.object.Le w'.object
  rely _ _ _ := True

/-- Any operation may be started at any time. -/
def PointerOperation.Starts
    (program : Prog PointerCall Answer (PointerOperation × Except LeaseError Unit)) :
    Prop :=
  ∃ operation attempts, program = PointerOperation.program attempts operation

variable {w w' : PointerWorld} {pointer : MetadataPointer} {metadata epoch : ℕ}
  {write : PointerWrite} {condition : Precondition} {store : ProviderLeaderStore}
  {holderId : String} {document : LeaseDocument} {thread : ℕ}

theorem PointerWorld.Holds.mono (h : w.Holds pointer metadata) (hle : w.object.Le w'.object) :
    w'.Holds pointer metadata := by
  obtain ⟨write, hmem, hpointer⟩ := h
  exact ⟨write, CasObject.Le.mem hle hmem, hpointer⟩

instance pointerSemantics_lawful : pointerSemantics.Lawful where
  refl w := CasObject.Le.refl _
  trans := CasObject.Le.trans
  rely_refl _ _ := trivial
  rely_trans _ _ := trivial
  env := by
    rintro w _ hinv ⟨object, hlands, rfl⟩
    refine ⟨⟨⟨hinv.guarded.lands hlands, fun cache pointer metadata hcache => ?_⟩, hlands.le⟩,
      fun _ => trivial⟩
    exact (hinv.caches cache pointer metadata hcache).mono hlands.le

/-! ## Calls -/

/-- The program ensures this, whatever the other threads do. -/
abbrev PointerEnsures (thread : ℕ) {β : Type} (Q : β → PointerWorld → Prop) (p : PointerM β)
    (w : PointerWorld) : Prop :=
  Ensures pointerSemantics thread (.top _ _) Q p w

/-- A call that leaves the world as it is. -/
theorem ensures_still {call : PointerCall} {Q : call.Answer → PointerWorld → Prop}
    (hquiet : ∀ (w : PointerWorld) answer w', w.Inv → w.Exec call answer w' → w' = w ∧
      ∀ w', w.object.Le w'.object → Q answer w') :
    PointerEnsures thread Q (ask call : PointerM call.Answer) w := by
  refine ask fun w' hlater answer w'' hexec => ?_
  obtain ⟨rfl, hQ⟩ := hquiet w' answer w'' hlater.inv hexec
  exact ⟨⟨⟨hlater.inv, pointerSemantics_lawful.refl _⟩, fun _ _ => trivial⟩, trivial,
    fun w₃ hlater _ => hQ w₃ hlater.le⟩

theorem ensures_ask_any {call : PointerCall}
    (hquiet : ∀ (w : PointerWorld) answer w', w.Exec call answer w' → w' = w) :
    PointerEnsures thread (fun _ _ => True) (ask call : PointerM call.Answer) w :=
  ensures_still fun w answer w' _ h => ⟨hquiet w answer w' h, fun _ _ => trivial⟩

theorem ensures_deadline (message : String) :
    PointerEnsures thread (fun _ _ => True) (PointerM.deadline message) w :=
  next (ensures_ask_any fun _ _ _ h => h) fun _ _ _ => require trivial fun _ _ _ _ => trivial

theorem ensures_remaining : PointerEnsures thread (fun _ _ => True) PointerM.remaining w :=
  ensures_deadline _

theorem ensures_validity : PointerEnsures thread (fun _ _ => True) (PointerM.validity epoch) w :=
  next (ensures_ask_any fun _ _ _ h => h) fun _ _ _ => settle trivial fun _ _ _ _ _ => trivial

/-- A pointer that passes the checks is the one that was read. -/
theorem eq_found_of_checkPointer {answer : PointerGet}
    (h : checkPointer answer = .ok (some (pointer, metadata))) :
    ∃ sized, answer = .found (.ok pointer) (some metadata) sized := by
  cases answer with
  | notFound | failed error => simp [checkPointer] at h
  | found content identity sized =>
    obtain ⟨found, hidentity, hrest⟩ := except_bind_eq_ok.1 h
    obtain rfl : identity = some found := by
      cases identity with
      | none => cases hidentity
      | some identity => rw [← Except.ok.inj hidentity]
    cases sized with
    | false => simp at hrest
    | true =>
      cases content with
      | error message => simp at hrest
      | ok content =>
        simp only [Bool.not_true, Bool.false_eq_true, if_false] at hrest
        split_ifs at hrest
        obtain ⟨_, _, hpointer⟩ := except_bind_eq_ok.1 hrest
        cases hpointer
        exact ⟨true, rfl⟩

/-- What is read has been a version of the object. -/
theorem ensures_readPointer : PointerEnsures thread
    (fun found w' => ∀ pointer metadata, found = some (pointer, metadata) →
      w'.Holds pointer metadata) readPointer w := by
  have hget : PointerEnsures thread (fun answer w' => ∀ pointer metadata sized,
      answer = PointerGet.found (.ok pointer) (some metadata) sized → w'.Holds pointer metadata)
      (ask PointerCall.get : PointerM PointerGet) w := by
    refine ensures_still ?_
    rintro w answer _ - ⟨hfinds, rfl⟩
    refine ⟨rfl, ?_⟩
    rintro w₃ hle pointer metadata sized rfl
    obtain ⟨write, hcurrent, hpointer⟩ := hfinds
    exact PointerWorld.Holds.mono ⟨write, CasObject.mem_of_current hcurrent, hpointer⟩ hle
  refine seq hget fun answer w' _ _ _ hanswer => ?_
  refine settle trivial fun found hfound w'' hlater _ => ?_
  rintro pointer metadata rfl
  obtain ⟨sized, heq⟩ := eq_found_of_checkPointer hfound
  exact (hanswer pointer metadata sized heq).mono hlater.le

/-! ## Writes -/

/-- The write has been checked against the version that it is to replace. -/
def PointerWorld.Allows (w : PointerWorld) (write : PointerWrite) : Precondition → Prop
  | .ifAbsent => write.Opens
  | .ifMatch metadata => ∃ pointer, w.Holds pointer metadata ∧ write.Follows pointer

theorem PointerWorld.Allows.mono (h : w.Allows write condition)
    (hle : pointerSemantics.le w w') : w'.Allows write condition := by
  cases condition with
  | ifAbsent => exact h
  | ifMatch metadata =>
    obtain ⟨pointer, hholds, hfollows⟩ := h
    exact ⟨pointer, hholds.mono hle, hfollows⟩

theorem PointerWorld.Inv.submit (hinv : w.Inv) (h : w.Allows write condition) :
    PointerWorld.Inv { w with object := w.object.submit condition write } := by
  refine ⟨?_, fun cache pointer metadata hcache => ?_⟩
  · cases condition with
    | ifAbsent => exact hinv.guarded.submit_ifAbsent h
    | ifMatch metadata =>
      obtain ⟨_, ⟨old, hmem, rfl⟩, hfollows⟩ := h
      exact hinv.guarded.submit_ifMatch hmem hfollows
  · exact (hinv.caches cache pointer metadata hcache).mono
      (CasObject.le_submit _ _)

theorem ensures_submit (h : w.Allows write condition) : PointerEnsures thread
    (fun _ _ => True) (ask (submit write condition) : PointerM Unit) w := by
  refine ask fun w' hlater answer w'' hexec => ?_
  obtain rfl : w'' = { w' with object := w'.object.submit condition write } := hexec
  exact ⟨⟨⟨PointerWorld.Inv.submit hlater.inv (h.mono hlater.le), CasObject.le_submit _ _⟩,
    fun _ _ => trivial⟩, trivial, fun _ _ _ => trivial⟩

/-- A pointer that has been read back is there. -/
theorem ensures_readBack :
    PointerEnsures thread (fun metadata w' => w'.Holds write.pointer metadata)
      (readBack write) w := by
  refine next ensures_remaining fun _ _ _ => ?_
  refine seq ensures_readPointer fun found w₂ _ _ _ hfound => ?_
  cases found with
  | none => exact throw trivial
  | some found =>
    refine require_seq trivial fun heq => ?_
    rw [decide_eq_true_eq] at heq
    exact pure trivial fun w₃ hlater _ => heq ▸ (hfound found.1 found.2 rfl).mono hlater.le

/-- Success means that the pointer has been written. -/
theorem ensures_writePointer (h : w.Allows write condition) :
    PointerEnsures thread (fun metadata w' => w'.Holds write.pointer metadata)
      (writePointer write condition) w := by
  refine seq ensures_remaining fun _ w₁ hle₁ _ _ _ => ?_
  refine next (ensures_submit (h.mono hle₁)) fun _ _ _ => ?_
  refine next ensures_remaining fun _ w₃ _ => ?_
  have hreceive : PointerEnsures thread (fun answer w' => ∀ metadata,
      answer = PointerPut.receipt metadata true → w'.Holds write.pointer metadata)
      (ask (receive write) : PointerM PointerPut) w₃ := by
    refine ensures_still ?_
    rintro w answer _ - ⟨hreceipts, rfl⟩
    refine ⟨rfl, ?_⟩
    rintro w₄ hle metadata rfl
    exact PointerWorld.Holds.mono hreceipts hle
  refine seq hreceive fun outcome w₄ _ _ _ houtcome => ?_
  cases outcome with
  | receipt metadata matching =>
    cases matching with
    | true => exact pure trivial fun w₅ hlater _ => (houtcome metadata rfl).mono hlater.le
    | false => exact throw trivial
  | noReceipt => exact ensures_readBack
  | preconditionFailed message => exact throw trivial
  | failed | lost => exact ensures_readBack

/-! ## The cache -/

theorem eq_or_eq_of_nextCache {cache : Option (MetadataPointer × ℕ)} {found : MetadataPointer × ℕ}
    (h : nextCache cache pointer metadata = some found) :
    cache = some found ∨ found = (pointer, metadata) := by
  unfold nextCache at h
  split_ifs at h
  · exact .inl h
  · exact .inr (Option.some.inj h).symm

/-- Only versions are cached. -/
theorem ensures_cachePointer {cache : ℕ} (h : w.Holds pointer metadata) :
    PointerEnsures thread (fun _ w' => w'.Holds pointer metadata)
      (ask (cachePointer cache pointer metadata) : PointerM Unit) w := by
  refine ask fun w' hlater answer w'' hexec => ?_
  obtain rfl : w'' = w'.cachePointer cache pointer metadata := hexec
  have hinv : w'.Inv := hlater.inv
  have hholds : w'.Holds pointer metadata := h.mono hlater.le
  refine ⟨⟨⟨⟨hinv.guarded, fun other found id hcache => ?_⟩, CasObject.Le.refl _⟩,
    fun _ _ => trivial⟩, trivial, fun w₃ hlater₃ _ => hholds.mono hlater₃.le⟩
  simp only [PointerWorld.cachePointer] at hcache
  by_cases hother : other = cache
  · subst hother
    rw [Function.update_self] at hcache
    rcases eq_or_eq_of_nextCache hcache with hcache | hfound
    · exact hinv.caches other found id hcache
    · cases hfound
      exact hholds
  · rw [Function.update_of_ne hother] at hcache
    exact hinv.caches other found id hcache

/-- A writer only gets a pointer that it owns. -/
theorem ensures_writerPointer :
    PointerEnsures thread (fun current w' => w'.Holds current.1 current.2 ∧
      current.1.owns store holderId epoch = true) (writerPointer store holderId epoch) w := by
  refine next (ensures_deadline _) fun _ _ _ => ?_
  refine next ensures_validity fun _ _ _ => ?_
  refine seq (P := fun cached w' => ∀ pointer metadata,
    cached = some (pointer, metadata) → w'.Holds pointer metadata) ?_
    fun cached w₃ _ _ _ hcached => ?_
  · refine ensures_still ?_
    rintro w answer _ hinv ⟨rfl, rfl⟩
    exact ⟨rfl, fun w₃ hle pointer metadata hcache => (hinv.caches _ pointer metadata hcache).mono hle⟩
  · refine seq (P := fun found w' => ∀ pointer metadata,
      found = some (pointer, metadata) → w'.Holds pointer metadata) ?_
      fun found w₄ _ _ _ hfound => ?_
    · cases cached with
      | none => exact ensures_readPointer
      | some cached => exact pure trivial fun w' hlater _ pointer metadata heq =>
          (hcached pointer metadata heq).mono hlater.le
    · cases found with
      | none => exact throw trivial
      | some current =>
        refine require_seq trivial fun howns => ?_
        refine seq ensures_validity fun _ w₅ hle₅ _ _ _ => ?_
        exact pure trivial fun w₆ hlater _ =>
          ⟨((hfound current.1 current.2 rfl).mono hle₅).mono hlater.le, howns⟩

/-! ## Operations -/

/-- What an operation that has succeeded leaves behind: a claim has made the writer's epoch
    that of a version, and a publication has been committed. -/
def PointerOperation.Done (w : PointerWorld) : PointerOperation → Prop
  | .claim _ document => ∃ pointer metadata, w.Holds pointer metadata ∧
      document.epoch = some pointer.writerEpoch
  | .publish _ _ _ _ generation => ∃ pointer metadata, w.Holds pointer metadata ∧
      pointer.committed = some generation
  | .readHead _ => True
  | .cachedHead _ _ _ => True

theorem PointerOperation.Done.mono {operation : PointerOperation} (h : operation.Done w)
    (hle : pointerSemantics.le w w') : operation.Done w' := by
  cases operation with
  | claim store document =>
    obtain ⟨pointer, metadata, hholds, hepoch⟩ := h
    exact ⟨pointer, metadata, hholds.mono hle, hepoch⟩
  | publish store holderId epoch previous generation =>
    obtain ⟨pointer, metadata, hholds, hcommitted⟩ := h
    exact ⟨pointer, metadata, hholds.mono hle, hcommitted⟩
  | readHead store | cachedHead store holderId epoch => trivial

theorem MetadataPointer.epoch_of_owns (h : pointer.owns store holderId epoch = true) :
    pointer.writerEpoch = epoch := by
  simp only [MetadataPointer.owns, Bool.and_eq_true, beq_iff_eq] at h
  exact h.1.1

theorem ensures_cached_claim {cache : ℕ} (hepoch : document.epoch = some pointer.writerEpoch)
    (h : w.Holds pointer metadata) :
    PointerEnsures thread (fun _ w' => (claim store document).Done w')
      (ask (cachePointer cache pointer metadata) : PointerM Unit) w :=
  (ensures_cachePointer h).imp (fun _ _ _ h => h) fun _ _ _ _ _ hholds =>
    ⟨pointer, metadata, hholds, hepoch⟩

theorem ensures_claimSwap {current : Option (MetadataPointer × ℕ)} {retry : PointerM Unit}
    (hepoch : document.epoch = some epoch)
    (hallows : w.Allows ⟨.claim store document, claimed store document epoch current⟩ condition)
    (hretry : ∀ w, PointerEnsures thread
      (fun _ w' => (claim store document).Done w') retry w) :
    PointerEnsures thread (fun _ w' => (claim store document).Done w')
      (claimSwap store document epoch current condition retry) w := by
  refine seq (attempt (ensures_writePointer hallows)) fun result w₁ _ _ _ hresult => ?_
  cases result with
  | ok metadata => exact ensures_cached_claim hepoch (hresult metadata rfl)
  | error error =>
    cases error with
    | acquisitionFailed message => exact hretry w₁
    | _ => exact throw trivial

theorem ensures_claimLoop (hepoch : document.epoch = some epoch) (attempts : ℕ) :
    ∀ w, PointerEnsures thread (fun _ w' => (claim store document).Done w')
      (claimLoop store document epoch attempts) w := by
  induction attempts with
  | zero => exact fun _ => throw trivial
  | succ attempts ih =>
    intro w
    refine next ensures_remaining fun _ _ _ => ?_
    refine seq ensures_readPointer fun current w₂ _ _ _ hfound => ?_
    cases current with
    | none =>
      refine next ensures_remaining fun _ _ _ => ?_
      refine next (ensures_ask_any fun _ _ _ h => h) fun answer _ _ => ?_
      refine settle_seq trivial fun sentinel _ => ?_
      refine require_seq trivial fun _ => ?_
      exact ensures_claimSwap hepoch (.claim hepoch rfl) ih
    | some current =>
      have hholds := hfound current.1 current.2 rfl
      obtain ⟨pointer, metadata⟩ := current
      by_cases howns : pointer.owns store document.holderId epoch = true
      · simp only [howns, if_true]
        exact ensures_cached_claim (hepoch.trans (by rw [pointer.epoch_of_owns howns])) hholds
      · simp only [howns]
        refine require_seq trivial fun hlt => ?_
        exact ensures_claimSwap hepoch
          ⟨pointer, hholds, .claim hepoch (of_decide_eq_true hlt) rfl⟩ ih

theorem ensures_claim (attempts : ℕ) :
    PointerEnsures thread (fun _ w' => (claim store document).Done w')
      (claimMetadataPointer attempts store document) w := by
  refine settle_seq trivial fun epoch hepoch => require_seq trivial fun _ => ?_
  refine ensures_claimLoop ?_ attempts w
  cases h : document.epoch with
  | none => simp [h] at hepoch
  | some other => simpa [h] using hepoch

variable {generation : CloudMetadataGeneration}

theorem ensures_publish {previous : Option CloudMetadataGeneration} :
    PointerEnsures thread (fun _ w' =>
      (publish store holderId epoch previous generation).Done w')
      (publishSeparateMetadata store holderId epoch previous generation) w := by
  refine settle_seq trivial fun _ _ => ?_
  refine seq ensures_validity fun budget w₂ _ _ _ _ => ?_
  refine require_seq trivial fun _ => ?_
  refine next ensures_remaining fun _ _ _ => ?_
  refine seq ensures_writerPointer fun current w₅ _ _ _ hcurrent => ?_
  obtain ⟨hholds, howns⟩ := hcurrent
  refine require_seq trivial fun _ => ?_
  refine seq ensures_validity fun _ w₆ hle₆ _ _ _ => ?_
  replace hholds := hholds.mono hle₆
  by_cases hsame : current.1.committed = some generation
  · simp only [hsame, if_true]
    exact pure trivial fun w₇ hlater _ => ⟨current.1, current.2, hholds.mono hlater.le, hsame⟩
  · simp only [hsame, if_false]
    refine require_seq trivial fun _ => settle_seq trivial fun _ hsuccessor => ?_
    have hfollows : PointerWrite.Follows current.1
        ⟨.publish store holderId epoch previous generation,
          { current.1 with committed := some generation }⟩ := by
      rw [← current.1.epoch_of_owns howns]
      exact .publish hsame hsuccessor
    refine seq (ensures_writePointer
      ⟨current.1, hholds, hfollows⟩) fun metadata w₇ _ _ _ hwritten => ?_
    refine seq ensures_validity fun _ w₈ hle₈ _ _ _ => ?_
    exact (ensures_cachePointer (hwritten.mono hle₈)).imp
      (fun _ _ _ h => h) fun _ _ _ _ _ hholds => ⟨_, metadata, hholds, rfl⟩

theorem ensures_readHead :
    PointerEnsures thread (fun _ _ => True) (readSeparateMetadataHead store) w := by
  refine next ensures_remaining fun _ _ _ => ?_
  refine seq ensures_readPointer fun pointer w₂ _ _ _ hfound => ?_
  refine seq ensures_remaining fun _ w₃ hle₃ _ _ _ => ?_
  refine seq (ensures_ask_any fun _ _ _ h => h) fun answer w₄ hle₄ _ _ _ => ?_
  refine settle_seq trivial fun lease _ => require_seq trivial fun _ => ?_
  refine seq ensures_remaining fun _ w₅ hle₅ _ _ _ => ?_
  refine seq (ensures_ask_any fun _ _ _ h => h) fun answer w₆ hle₆ _ _ _ => ?_
  refine settle_seq trivial fun sentinel _ => ?_
  have hle : w₂.object.Le w₆.object :=
    ((CasObject.Le.trans hle₃ hle₄).trans hle₅).trans hle₆
  split
  · exact next (ensures_cachePointer ((hfound _ _ rfl).mono hle)) fun _ _ _ => done trivial
  · exact require_seq trivial fun _ => done trivial
  · exact done trivial
  · exact done trivial
  · exact done trivial
  · exact throw trivial

/-- Every operation is correct, and has done its work if it succeeds. -/
theorem PointerOperation.correct (attempts : ℕ) (operation : PointerOperation) :
    (operation.program attempts).Correct pointerSemantics thread
      (fun result w' => result.2 = .ok () → result.1.Done w') w := by
  refine Correct.bind ?_
  have hrun : PointerEnsures thread (fun _ w' => operation.Done w') (operation.run attempts) w := by
    cases operation with
    | claim store document => exact ensures_claim attempts
    | publish store holderId epoch previous generation => exact ensures_publish
    | readHead store =>
      exact next ensures_readHead fun _ _ _ => done trivial
    | cachedHead store holderId epoch =>
      exact next (next ensures_writerPointer fun _ _ _ => done trivial) fun _ _ _ => done trivial
  refine Correct.imp hrun fun result w₁ _ _ hdone => ?_
  exact fun w₂ hlater hok => (hdone.2 () hok).mono hlater.le

/-! ## The history -/

section History

variable {versions : List (PointerWrite × ℕ)} {version : PointerWrite × ℕ}

theorem publications_append_singleton :
    publications (versions ++ [version]) = publications versions ++ version.1.publication.toList := by
  rw [publications, filterMap_append]
  cases h : version.1.publication <;> simp [publications, h]

@[simp]
theorem committedGeneration_append_singleton :
    committedGeneration (versions ++ [version]) = version.1.pointer.committed := by
  simp [committedGeneration]

/-- The generations follow each other, and the last one is committed. -/
structure LinearHistory (versions : List (PointerWrite × ℕ)) : Prop where
  ids : (publications versions).map CloudMetadataGeneration.id =
    List.range' SharedGenerationId.first (publications versions).length
  horizons : (publications versions).Pairwise fun old new => old.manifestHorizon ≤ new.manifestHorizon
  committed : committedGeneration versions = (publications versions).getLast?

theorem LinearHistory.nil : LinearHistory [] := ⟨rfl, .nil, rfl⟩

/-- A version that publishes nothing keeps the generation. -/
theorem LinearHistory.claim (h : LinearHistory versions) (hpublication : version.1.publication = none)
    (hcommitted : version.1.pointer.committed = committedGeneration versions) :
    LinearHistory (versions ++ [version]) := by
  have hsame : publications (versions ++ [version]) = publications versions := by
    simp [publications_append_singleton, hpublication]
  exact ⟨hsame ▸ h.ids, hsame ▸ h.horizons, by simp [hsame, hcommitted, h.committed]⟩

/-- The number of the next generation. -/
theorem LinearHistory.nextId (h : LinearHistory versions) {next : ℕ}
    (hnext : nextId (committedGeneration versions) = some next) :
    next = SharedGenerationId.first + (publications versions).length := by
  rcases eq_nil_or_concat (publications versions) with hnil | ⟨l, last, hlast⟩
  · simpa [h.committed, hnil, CloudMetadataGeneration.nextId, eq_comm] using hnext
  · have hids := h.ids
    rw [h.committed, hlast, concat_eq_append, getLast?_concat] at hnext
    rw [hlast, concat_eq_append, map_append, length_append, length_singleton,
      range'_concat] at hids
    have hid : last.id = SharedGenerationId.first + 1 * l.length :=
      head_eq_of_cons_eq (append_inj' hids rfl).2
    rw [CloudMetadataGeneration.nextId, Option.elim_some, SharedGenerationId.checkedNext,
      Option.ite_none_right_eq_some] at hnext
    rw [hlast, concat_eq_append, length_append, length_singleton]
    have := Option.some.inj hnext.2
    omega

/-- A publication is the next generation. -/
theorem LinearHistory.publish (h : LinearHistory versions)
    (hpublication : version.1.publication = some generation)
    (hcommitted : version.1.pointer.committed = some generation)
    (hne : committedGeneration versions ≠ some generation)
    (hsuccessor : generation.validateSuccessor (committedGeneration versions) = .ok ()) :
    LinearHistory (versions ++ [version]) := by
  obtain ⟨hnext, hhorizon⟩ := (CloudMetadataGeneration.validateSuccessor_eq_ok hne).1 hsuccessor
  have hnew : publications (versions ++ [version]) = publications versions ++ [generation] := by
    simp [publications_append_singleton, hpublication]
  refine ⟨?_, ?_, by simp [hnew, hcommitted]⟩
  · rw [hnew, map_append, h.ids, length_append, length_singleton,
      range'_concat, one_mul, map_singleton, h.nextId hnext]
  · rw [hnew, pairwise_append]
    refine ⟨h.horizons, by simp, fun old hold new hnew => ?_⟩
    rw [mem_singleton.1 hnew]
    obtain ⟨l, last, hlast⟩ := eq_nil_or_concat (publications versions) |>.resolve_left
      (ne_nil_of_mem hold)
    rw [concat_eq_append] at hlast
    have hle : last.manifestHorizon ≤ generation.manifestHorizon :=
      hhorizon last (by rw [h.committed, hlast, getLast?_concat])
    have hsorted := h.horizons
    rw [hlast, pairwise_append] at hsorted
    rw [hlast] at hold
    rcases mem_append.1 hold with hold | hold
    · exact (hsorted.2.2 old hold last (by simp)).trans hle
    · rw [mem_singleton.1 hold]
      exact hle

/-- Every beginning of the history is linear. -/
theorem PointerWorld.Inv.linear (hinv : w.Inv) :
    ∀ versions, versions <+: w.object.versions → LinearHistory versions := by
  refine hinv.guarded.history_induction .nil (fun version hopens => ?_)
    fun versions old version hlinear hfollows => ?_
  · obtain ⟨write, metadata⟩ := version
    cases hopens with
    | claim hepoch hcommitted => exact LinearHistory.nil.claim rfl (by rw [hcommitted]; rfl)
  · obtain ⟨write, metadata⟩ := version
    cases hfollows with
    | claim hepoch hlt hcommitted =>
      exact hlinear.claim rfl (by rw [committedGeneration_append_singleton, hcommitted])
    | publish hne hsuccessor =>
      exact hlinear.publish rfl rfl (by rwa [committedGeneration_append_singleton])
        (by rwa [committedGeneration_append_singleton])

theorem PointerWorld.Inv.epochs (hinv : w.Inv) : w.object.versions.Pairwise fun old new =>
    old.1.pointer.writerEpoch ≤ new.1.pointer.writerEpoch := by
  refine hinv.guarded.pairwise (T := fun old new =>
    old.pointer.writerEpoch ≤ new.pointer.writerEpoch) (fun old new hfollows => ?_)
    fun _ _ _ => le_trans
  cases hfollows with
  | claim hepoch hlt hcommitted => exact hlt.le
  | publish hne hsuccessor => exact le_rfl

/-- A publication carries the epoch of its writer. -/
theorem PointerWorld.Inv.publisher (hinv : w.Inv) {write : PointerWrite}
    (hmem : (write, metadata) ∈ w.object.versions) {previous : Option CloudMetadataGeneration}
    (hauthor : write.author = .publish store holderId epoch previous generation) :
    write.pointer.writerEpoch = epoch := by
  rcases hinv.guarded.of_mem hmem with hopens | ⟨old, hfollows⟩
  · cases hopens
    cases hauthor
  · cases hfollows with
    | claim hepoch hlt hcommitted => cases hauthor
    | publish hne hsuccessor =>
      cases hauthor
      rfl

/-- What a version commits has been published. -/
theorem PointerWorld.Inv.published (hinv : w.Inv) (hholds : w.Holds pointer metadata)
    (hcommitted : pointer.committed = some generation) :
    generation ∈ publications w.object.versions := by
  obtain ⟨write, hmem, rfl⟩ := hholds
  obtain ⟨before, after, hversions⟩ := append_of_mem hmem
  have hprefixed : before ++ [(write, metadata)] <+: w.object.versions :=
    ⟨after, by rw [hversions]; simp⟩
  have hlast := (hinv.linear _ hprefixed).committed
  rw [committedGeneration_append_singleton, hcommitted] at hlast
  exact (hprefixed.sublist.filterMap _).subset (mem_of_getLast? hlast.symm)

end History

/-! ## Runs -/

/-- The operations of all processes on the pointer. -/
abbrev PointerPool :=
  Pool PointerCall Answer (PointerOperation × Except LeaseError Unit) PointerWorld

namespace PointerPool

/-- One call of an operation, or the arrival of a request, or the start or end of an operation. -/
abbrev Step : PointerPool → PointerPool → Prop :=
  Pool.Step pointerSemantics Starts

/-- An empty store, and no operations. -/
def empty : PointerPool := ⟨{}, fun _ => none⟩

theorem safe_empty : Pool.Safe pointerSemantics
    (fun result w' => result.2 = .ok () → result.1.Done w') empty :=
  ⟨⟨CasObject.Guarded.empty, by rintro _ _ _ ⟨⟩⟩, by rintro _ _ ⟨⟩⟩

variable {pool pool' : PointerPool}

theorem safe (hrun : Relation.ReflTransGen Step empty pool) : Pool.Safe pointerSemantics
    (fun result w' => result.2 = .ok () → result.1.Done w') pool := by
  refine (safe_empty.run ?_ hrun).1
  rintro _ ⟨operation, attempts, rfl⟩ thread w _
  exact operation.correct attempts

theorem le (hrun : Relation.ReflTransGen Step empty pool)
    (hrun' : Relation.ReflTransGen Step pool pool') :
    pool.world.object.Le pool'.world.object := by
  refine ((safe hrun).run ?_ hrun').2
  rintro _ ⟨operation, attempts, rfl⟩ thread w _
  exact operation.correct attempts

/-- The committed generations form one chain, and the epochs do not decrease. A claim keeps
    the committed generation. Once a version of some epoch is there, nothing of a lower epoch
    is written any more. An operation that has succeeded has been carried out. -/
theorem pointer_history (hrun : Relation.ReflTransGen Step empty pool) :
    (∀ versions, versions <+: pool.world.object.versions → LinearHistory versions) ∧
    (pool.world.object.versions.Pairwise fun old new =>
      old.1.pointer.writerEpoch ≤ new.1.pointer.writerEpoch) ∧
    (pool.world.object.versions.IsChain fun old new => ∀ store document,
      new.1.author = .claim store document →
        new.1.pointer.committed = old.1.pointer.committed) ∧
    (∀ pool', Relation.ReflTransGen Step pool pool' →
      ∃ later, pool'.world.object.versions = pool.world.object.versions ++ later ∧
        ∀ claimed ∈ pool.world.object.versions, ∀ version ∈ later,
          ∀ store holderId epoch previous generation,
            version.1.author = .publish store holderId epoch previous generation →
              claimed.1.pointer.writerEpoch ≤ epoch) ∧
    (∀ thread store document, pool.threads thread = some (.ret (.claim store document, .ok ())) →
      ∃ claimed ∈ pool.world.object.versions,
        document.epoch = some claimed.1.pointer.writerEpoch) ∧
    (∀ thread store holderId epoch previous generation,
      pool.threads thread = some (.ret (.publish store holderId epoch previous generation, .ok ())) →
        generation ∈ publications pool.world.object.versions) := by
  have hsafe := safe hrun
  have hinv : pool.world.Inv := hsafe.inv
  refine ⟨hinv.linear, hinv.epochs, ?_, fun pool' hrun' => ?_, fun thread store document h => ?_,
    fun thread store holderId epoch previous generation h => ?_⟩
  · refine hinv.guarded.chain.imp fun old new hfollows store document hauthor => ?_
    obtain ⟨⟨author, pointer⟩, metadata⟩ := new
    cases hfollows with
    | claim hepoch hlt hcommitted => exact hcommitted
    | publish hne hsuccessor => cases hauthor
  · obtain ⟨later, hlater⟩ := (le hrun hrun').versions
    have hinv' : pool'.world.Inv := (safe (hrun.trans hrun')).inv
    have hepochs := hinv'.epochs
    rw [← hlater, pairwise_append] at hepochs
    refine ⟨later, hlater.symm, fun claimed hclaimed version hversion store holderId epoch previous
      generation hauthor => ?_⟩
    have hmem : version ∈ pool'.world.object.versions := by
      rw [← hlater]
      exact mem_append_right _ hversion
    rw [← hinv'.publisher hmem hauthor]
    exact hepochs.2.2 claimed hclaimed version hversion
  · obtain ⟨pointer, metadata, ⟨write, hmem, rfl⟩, hepoch⟩ :=
      hsafe.of_ret h rfl
    exact ⟨(write, metadata), hmem, hepoch⟩
  · obtain ⟨pointer, metadata, hholds, hcommitted⟩ := hsafe.of_ret h rfl
    exact hinv.published hholds hcommitted

/-- A writer, its lease, and its first generation. -/
def writerStore : ProviderLeaderStore := ⟨0, "token"⟩

def writerLease : LeaseDocument := ⟨.v4, some 1, "writer", some "token", 0, 30000, none⟩

def firstGeneration : CloudMetadataGeneration where
  id := 1
  manifestHorizon := 7
  objects := [⟨"manifest-chain",
    "manifest/00000000000000000001/00000000-0000-0000-0000-000000000000", 1, 0⟩]

theorem validate_firstGeneration : validateMetadataGeneration firstGeneration = .ok () := by
  decide +kernel

/-- The pointer after the claim. -/
def claimedWrite : PointerWrite :=
  ⟨.claim writerStore writerLease, claimed writerStore writerLease 1 none⟩

/-- The store after the claim. -/
def claimedWorld : PointerWorld :=
  ⟨⟨[(claimedWrite, 5)], [(.ifAbsent, claimedWrite)]⟩,
    Function.update (fun _ => none) 0 (some (claimedWrite.pointer, 5))⟩

theorem alone_claim : Pool.Alone pointerSemantics 0
    ((claim writerStore writerLease).program 1) {}
    (.ret (.claim writerStore writerLease, .ok ())) claimedWorld := by
  refine .call false rfl (.call .notFound ⟨rfl, rfl⟩ (.call false rfl
    (.call (.ok .pending) rfl (.call false rfl (.call () rfl ?_)))))
  refine .env { object := ⟨[(claimedWrite, 5)], [(.ifAbsent, claimedWrite)]⟩ }
    ⟨_, .intro (mem_singleton.2 rfl) rfl (fun _ h => nomatch h), rfl⟩ ?_
  exact .call false rfl (.call (.receipt 5 true)
    ⟨⟨claimedWrite, mem_singleton.2 rfl, rfl⟩, rfl⟩ (.call () rfl .refl))

/-- The publication that follows. -/
def firstPublication : PointerOperation :=
  .publish writerStore "writer" 1 none firstGeneration

def publishedWrite : PointerWrite :=
  ⟨firstPublication, { claimedWrite.pointer with committed := some firstGeneration }⟩

/-- The store after the publication has arrived. -/
def publishedWorld : PointerWorld :=
  { claimedWorld with object := ⟨[(claimedWrite, 5), (publishedWrite, 6)],
    [(.ifMatch 5, publishedWrite), (.ifAbsent, claimedWrite)]⟩ }

theorem alone_publish : Pool.Alone pointerSemantics 1 (firstPublication.program 1) claimedWorld
    (.ret (firstPublication, .ok ())) (publishedWorld.cachePointer 0 publishedWrite.pointer 6) := by
  rw [firstPublication, program, run, publishSeparateMetadata,
    validate_firstGeneration]
  refine .call (.ok (20 * second)) rfl (.call false rfl (.call false rfl (.call (.ok (20 * second)) rfl
    (.call (some (claimedWrite.pointer, 5)) ⟨rfl, rfl⟩ (.call (.ok (20 * second)) rfl
      (.call (.ok (20 * second)) rfl ?_))))))
  refine .call false rfl (.call () rfl (.env publishedWorld
    ⟨_, .intro (mem_cons_self ..) ⟨claimedWrite, rfl⟩ (by decide), rfl⟩ ?_))
  exact .call false rfl (.call (.receipt 6 true)
    ⟨⟨publishedWrite, mem_of_getLast? rfl, rfl⟩, rfl⟩
    (.call (.ok (20 * second)) rfl (.call () rfl .refl)))

/-- A writer that claims the pointer and publishes its first generation. -/
theorem pointer_history_first : ∃ pool : PointerPool, Relation.ReflTransGen Step empty pool ∧
    firstGeneration ∈ publications pool.world.object.versions := by
  have hstart : ∀ operation attempts, PointerOperation.Starts
      (PointerOperation.program attempts operation) := fun operation attempts =>
    ⟨operation, attempts, rfl⟩
  have hrun : Relation.ReflTransGen Step empty _ :=
    .trans (.head (.start (i := 0) (hstart (.claim writerStore writerLease) 1))
      (alone_claim.run _)) (.head (.start (i := 1) (hstart firstPublication 1))
        (alone_publish.run _))
  exact ⟨_, hrun, (pointer_history hrun).2.2.2.2.2 1 writerStore "writer" 1 none _ rfl⟩

end PointerPool

end Midge
