import Midge.Cloud.LeaseSpec

/-!
# Runs of the lease protocol

Every operation keeps the invariant and what the other threads rely on. An acquisition knows,
under the lock, that its epoch is new; a renewal knows that its document has arrived.
-/

namespace Midge

open LeaseValidityState LeaseWorld

open Prog hiding perform
open List Ensures LeaseValidityState

/-! ## Validity -/

/-- When a validity is active after an operation. -/
theorem LeaseValidityState.active_perform {state : LeaseValidityState}
    {operation : ValidityOperation} {now epoch validUntil : ℕ}
    (hactive : (state.perform now operation).1 = .active epoch validUntil) :
    state = .active epoch validUntil ∨
      (operation = .activate epoch validUntil ∧ now < validUntil) ∨
      (operation = .advance epoch validUntil ∧
        ∃ old, state = .active epoch old ∧ now < old) := by
  cases operation with
  | activate epoch' validUntil' =>
    simp only [perform, activate] at hactive
    split_ifs at hactive with hexpired
    · exact .inl hactive
    · cases state with
      | inactive =>
        cases hactive
        exact .inr (.inl ⟨rfl, not_le.1 hexpired⟩)
      | active epoch'' validUntil'' => exact .inl hactive
      | fenced epoch'' => exact .inl hactive
  | advance epoch' candidate =>
    cases state with
    | inactive => exact .inl hactive
    | fenced epoch'' => exact .inl hactive
    | active epoch'' validUntil'' =>
      simp only [perform, advance] at hactive
      split_ifs at hactive with hvalid
      cases hactive
      exact .inr (.inr ⟨rfl, validUntil'', by rw [hvalid.1], hvalid.2.1⟩)
  | fence epoch' | deactivate epoch' | fenceIfExpired epoch' | remaining epoch' =>
    -- These leave the validity as it is, or end it.
    refine .inl ?_
    cases state <;>
      simp only [perform, fence, deactivate, fenceIfExpired, remaining] at hactive <;>
      (try split_ifs at hactive) <;> exact hactive

variable {document : LeaseDocument} {metadata : ℕ}

namespace LeaseWorld

variable {config : LeaseConfig} {w w' w'' : LeaseWorld} {h g epoch validUntil thread other : ℕ}
  {write : LeaseWrite} {condition : Precondition} {operation : ValidityOperation}

/-! ## Requests -/

/-- The document has been written. -/
def Stored (w : LeaseWorld) (document : LeaseDocument) (metadata : ℕ) : Prop :=
  ∃ write : LeaseWrite, (write, metadata) ∈ w.object.versions ∧ write.document = document

theorem Stored.mono (hstored : w.Stored document metadata) (hle : Le w w') :
    w'.Stored document metadata := by
  obtain ⟨write, hmem, hdocument⟩ := hstored
  exact ⟨write, hle.object.mem hmem, hdocument⟩

/-- The write has been checked against the document that it is to replace, and has been dated. -/
structure Allows (config : LeaseConfig) (w : LeaseWorld) (write : LeaseWrite)
    (condition : Precondition) : Prop where
  absent : condition = .ifAbsent → write.Opens config
  replaced : ∀ metadata, condition = .ifMatch metadata →
    ∃ document, w.Stored document metadata ∧ write.Follows config document
  dated : ∃ h epoch s, config.Owns h epoch write.document ∧ s ≤ w.now ∧
    write.document.expiresAt ≤ config.clock h s + (config.holder h).ttl
  begun : ∀ validFrom, write.purpose = .acquire validFrom → validFrom ≤ w.now

theorem Allows.mono (hallows : Allows config w write condition) (hle : Le w w') :
    Allows config w' write condition where
  absent := hallows.absent
  replaced metadata hcondition := by
    obtain ⟨document, hstored, hfollows⟩ := hallows.replaced metadata hcondition
    exact ⟨document, hstored.mono hle, hfollows⟩
  dated := by
    obtain ⟨h, epoch, s, howns, hs, hexpires⟩ := hallows.dated
    exact ⟨h, epoch, s, howns, hs.trans hle.now, hexpires⟩
  begun validFrom hpurpose := (hallows.begun validFrom hpurpose).trans hle.now

/-- Send a request. -/
def submitted (w : LeaseWorld) (write : LeaseWrite) (condition : Precondition) : LeaseWorld :=
  { w with object := w.object.submit condition write }

theorem mem_submitted {request : Precondition × LeaseWrite}
    (hmem : request ∈ (w.submitted write condition).object.sent) :
    request = (condition, write) ∨ request ∈ w.object.sent :=
  mem_cons.1 hmem

theorem Inv.submit (hinv : w.Inv config) (hallows : Allows config w write condition)
    (hended : write.purpose.expires = true → ∀ h epoch, config.Owns h epoch write.document →
      w.Ended h epoch) : (w.submitted write condition).Inv config where
  __ := hinv
  guarded := by
    cases condition with
    | ifAbsent => exact hinv.guarded.submit_ifAbsent (hallows.absent rfl)
    | ifMatch metadata =>
      obtain ⟨_, ⟨old, hmem, rfl⟩, hfollows⟩ := hallows.replaced metadata rfl
      exact hinv.guarded.submit_ifMatch hmem hfollows
  sent version hmem := by
    obtain ⟨condition', hsent⟩ := hinv.sent version hmem
    exact ⟨condition', mem_cons_of_mem _ hsent⟩
  dated condition' write' hmem := by
    rcases mem_submitted hmem with heq | hmem
    · cases heq
      exact hallows.dated
    · exact hinv.dated condition' write' hmem
  begun condition' document validFrom hmem := by
    rcases mem_submitted hmem with heq | hmem
    · cases heq
      exact hallows.begun validFrom rfl
    · exact hinv.begun condition' document validFrom hmem
  ended condition' write' hmem hexpires h epoch howns := by
    rcases mem_submitted hmem with heq | hmem
    · cases heq
      exact hended hexpires h epoch howns
    · exact hinv.ended condition' write' hmem hexpires h epoch howns

@[simp] theorem operate_validity_self :
    (w.operate h operation).validity h = ((w.validity h).perform w.now operation).1 := by
  simp [operate]

theorem operate_validity_of_ne (hne : g ≠ h) : (w.operate h operation).validity g = w.validity g := by
  simp [operate, hne]

/-- A renewal that has arrived extends the validity. -/
theorem Inv.advance (hinv : w.Inv config) {candidate : ℕ} (hstored : w.Stored document metadata)
    (howns : config.Owns h epoch document) (hcovers : config.Covers document candidate) :
    (w.operate h (.advance epoch candidate)).Inv config ∧
      Le w (w.operate h (.advance epoch candidate)) := by
  have hactive : ∀ g epoch' validUntil,
      (w.operate h (.advance epoch candidate)).validity g = .active epoch' validUntil →
        w.validity g = .active epoch' validUntil ∨ g = h ∧ epoch' = epoch ∧
          validUntil = candidate ∧ ∃ old, w.validity h = .active epoch old ∧ w.now < old := by
    intro g epoch' validUntil hactive
    by_cases hg : g = h
    · subst hg
      rw [operate_validity_self] at hactive
      rcases active_perform hactive with hsame | ⟨hop, -⟩ | ⟨hop, hold⟩
      · exact .inl hsame
      · cases hop
      · cases hop
        exact .inr ⟨rfl, rfl, rfl, hold⟩
    · rw [operate_validity_of_ne hg] at hactive
      exact .inl hactive
  have hended : ∀ g epoch', w.Ended g epoch' →
      (w.operate h (.advance epoch candidate)).Ended g epoch' := by
    intro g epoch' hended validUntil hv
    rcases hactive g epoch' validUntil hv with hv | ⟨rfl, rfl, rfl, old, hold, hlt⟩
    · exact hended validUntil hv
    · exact absurd (hended old hold) (not_le.2 hlt)
  have hspent : ∀ g epoch', w.Spent g epoch' →
      (w.operate h (.advance epoch candidate)).Spent g epoch' :=
    fun g epoch' hspent => ⟨hspent.1, hended g epoch' hspent.2⟩
  refine ⟨?_, CasObject.Le.refl _, le_rfl, prefix_rfl, hspent⟩
  exact { hinv with
    ended := fun condition write hsent hexpires g epoch' howns =>
      hended g epoch' (hinv.ended condition write hsent hexpires g epoch' howns)
    backed := by
      intro g epoch' validUntil hv
      rcases hactive g epoch' validUntil hv with hv | ⟨rfl, rfl, rfl, old, hold, -⟩
      · exact hinv.backed g epoch' validUntil hv
      · obtain ⟨write, hmem, rfl⟩ := hstored
        exact ⟨(hinv.backed g epoch' old hold).1, _, hmem, howns, hcovers⟩
    reconcilers := by
      intro g document hmem
      obtain ⟨epoch', howns, hsp⟩ := hinv.reconcilers g document hmem
      exact ⟨epoch', howns, hspent g epoch' hsp⟩ }

/-- The thread holds the lock, and no lease with a higher epoch has been granted to the process
    or expired. -/
structure Fresh (config : LeaseConfig) (h last thread : ℕ) (w : LeaseWorld) : Prop where
  lock : w.lock h = some thread
  grants : ∀ epoch, last < epoch → (h, epoch) ∉ w.grants
  expiring : ∀ condition (write : LeaseWrite) epoch, last < epoch →
    (condition, write) ∈ w.object.sent → write.purpose.expires = true →
      ¬ config.Owns h epoch write.document

theorem Fresh.mono {last : ℕ} (hfresh : Fresh config h last thread w)
    (hrely : Rely config thread w w') : Fresh config h last thread w' := by
  obtain ⟨hlock, hgrants, hexpiring⟩ := hrely h hfresh.lock
  refine ⟨hlock, fun epoch hlt hgrant => hfresh.grants epoch hlt (hgrants epoch hgrant),
    fun condition write epoch hlt hsent hexpires howns => ?_⟩
  rcases hexpiring condition write epoch hsent hexpires howns with hsent | hgrant
  · exact hfresh.expiring condition write epoch hlt hsent hexpires howns
  · exact hfresh.grants epoch hlt hgrant

/-- All epochs beyond that of the current document are fresh. -/
theorem Inv.fresh (hinv : w.Inv config) (hlock : w.lock h = some thread) :
    Fresh config h (((w.current.map Prod.fst).bind LeaseDocument.epoch).getD 0) thread w := by
  have hle : ∀ version ∈ w.object.versions, version.1.document.epoch.getD 0 ≤
      ((w.current.map Prod.fst).bind LeaseDocument.epoch).getD 0 := by
    intro version hmem
    obtain ⟨current, hcurrent⟩ : ∃ current, w.object.current = some current := by
      cases hlast : w.object.current with
      | none => exact absurd hmem (by simp [getLast?_eq_none_iff.1 hlast])
      | some current => exact ⟨current, rfl⟩
    have hepoch : ((w.current.map Prod.fst).bind LeaseDocument.epoch).getD 0 =
        current.1.document.epoch.getD 0 := by simp [LeaseWorld.current, hcurrent]
    rcases hinv.le_current hcurrent hmem with hlt | ⟨heq, -⟩
    · omega
    · rw [hepoch, heq]
  refine ⟨hlock, fun epoch hlt hgrant => ?_, fun condition write epoch hlt hsent hexpires howns => ?_⟩
  · obtain ⟨version, hmem, howns⟩ := hinv.granted _ hgrant
    have := hle version hmem
    rw [howns.2, Option.getD_some] at this
    omega
  · -- A request that expires a lease has been checked against a document of that lease.
    cases condition with
    | ifAbsent =>
      have hopens := hinv.guarded.absent write hsent
      cases hopens with
      | acquire => simp [LeasePurpose.expires] at hexpires
    | ifMatch metadata =>
      obtain ⟨old, hmem, hfollows⟩ := hinv.guarded.replaced metadata write hsent
      have := hle _ hmem
      cases hfollows with
      | acquire | renew => simp [LeasePurpose.expires] at hexpires
      | expire =>
        rw [show old.document.epoch = some epoch from howns.2, Option.getD_some] at this
        omega

/-- The world after a lease has been granted. -/
def grant (w : LeaseWorld) (h epoch validUntil : ℕ) : LeaseWorld :=
  { w with
    validity := Function.update w.validity h (.active epoch validUntil)
    grants := w.grants ++ [(h, epoch)] }

/-- The epochs that have been granted are lower than that of a lease whose document is
    current. -/
theorem Inv.lt_of_granted (hinv : w.Inv config) {current : LeaseWrite × ℕ}
    (hcurrent : w.object.current = some current) (howns : config.Owns h epoch current.1.document)
    (hnew : (h, epoch) ∉ w.grants) : ∀ grant ∈ w.grants, grant.2 < epoch := by
  intro grant hgrant
  obtain ⟨version, hmem, howns'⟩ := hinv.granted grant hgrant
  rcases hinv.le_current hcurrent hmem with hlt | ⟨hepoch, htoken⟩
  · rwa [howns.2, howns'.2, Option.getD_some, Option.getD_some] at hlt
  · have hsame : config.Owns h epoch version.1.document :=
      ⟨htoken.trans howns.1, hepoch.trans howns.2⟩
    obtain ⟨hh, he⟩ := hsame.unique howns'
    exact absurd (by rw [hh, he]; exact hgrant) hnew

theorem Inv.grant (hinv : w.Inv config) {last : ℕ} (hfresh : Fresh config h last thread w)
    (hlast : last < epoch) (hstored : w.Stored document metadata)
    (howns : config.Owns h epoch document) (hcovers : config.Covers document validUntil)
    (hnow : w.now < validUntil) :
    (w.grant h epoch validUntil).Inv config ∧ Le w (w.grant h epoch validUntil) := by
  have hnew := hfresh.grants epoch hlast
  have hactive : ∀ g epoch' until',
      (w.grant h epoch validUntil).validity g = .active epoch' until' →
        w.validity g = .active epoch' until' ∨ g = h ∧ epoch' = epoch ∧ until' = validUntil := by
    intro g epoch' until' hv
    by_cases hg : g = h
    · subst hg
      simp only [grant, Function.update_self, active.injEq] at hv
      exact .inr ⟨rfl, hv.1.symm, hv.2.symm⟩
    · simp only [LeaseWorld.grant, Function.update_of_ne hg] at hv
      exact .inl hv
  have hended : ∀ g epoch', (g, epoch') ≠ (h, epoch) → w.Ended g epoch' →
      (w.grant h epoch validUntil).Ended g epoch' := by
    intro g epoch' hne hended until' hv
    rcases hactive g epoch' until' hv with hv | ⟨rfl, rfl, -⟩
    · exact hended until' hv
    · exact absurd rfl hne
  have hspent : ∀ g epoch', w.Spent g epoch' → (w.grant h epoch validUntil).Spent g epoch' := by
    rintro g epoch' ⟨hgrant, hend⟩
    refine ⟨mem_append_left _ hgrant, hended g epoch' ?_ hend⟩
    rintro heq
    exact hnew (heq ▸ hgrant)
  obtain ⟨write, hmem, rfl⟩ := hstored
  have hexpiring : ∀ version ∈ w.object.versions, version.1.purpose.expires = true →
      ¬ config.Owns h epoch version.1.document := by
    intro version hversion hexpires
    obtain ⟨condition, hsent⟩ := hinv.sent version hversion
    exact hfresh.expiring condition version.1 epoch hlast hsent hexpires
  obtain ⟨current, hcurrent, hcurrentOwns⟩ :=
    hinv.current_owns hmem howns hcovers hnow hexpiring
  refine ⟨?_, CasObject.Le.refl _, le_rfl, prefix_append _ _, hspent⟩
  exact { hinv with
    ended := by
      intro condition write' hsent hexpires g epoch' howns'
      refine hended g epoch' ?_ (hinv.ended condition write' hsent hexpires g epoch' howns')
      rintro ⟨⟩
      exact hfresh.expiring condition write' epoch hlast hsent hexpires howns'
    backed := by
      intro g epoch' until' hv
      rcases hactive g epoch' until' hv with hv | ⟨rfl, rfl, rfl⟩
      · obtain ⟨hgrant, hversion⟩ := hinv.backed g epoch' until' hv
        exact ⟨mem_append_left _ hgrant, hversion⟩
      · exact ⟨by simp [grant], _, hmem, howns, hcovers⟩
    granted := by
      intro granted hgranted
      rcases mem_append.1 hgranted with hgranted | hgranted
      · exact hinv.granted granted hgranted
      · rw [mem_singleton.1 hgranted]
        exact ⟨_, hmem, howns⟩
    ordered := by
      refine pairwise_append.2 ⟨hinv.ordered, by simp, fun old hold new hnew' => ?_⟩
      rw [mem_singleton.1 hnew']
      exact hinv.lt_of_granted hcurrent hcurrentOwns hnew old hold
    reconcilers := by
      intro g document' hreconciler
      obtain ⟨epoch', howns', hsp⟩ := hinv.reconcilers g document' hreconciler
      exact ⟨epoch', howns', hspent g epoch' hsp⟩ }

end LeaseWorld

/-! ## Calls -/

section Frames

variable {config : LeaseConfig} {i : ℕ} {α : Type}

end Frames

section Calls

open LeaseWorld

variable {config : LeaseConfig} {w w' : LeaseWorld} {h epoch i : ℕ}
  {F : (orderlySemantics config).Frame i} {write : LeaseWrite} {condition : Precondition}

end Calls

end Midge
