import Midge.Cloud.Lease

/-!
# One holder at a time

While a process has validity left, the current document is its own: nobody has found the
document expired, and nobody has written that it has (`LeaseWorld.Inv.current_owns`). So two
processes never have validity left at the same time, and the epochs of the leases increase
(`lease_exclusive`).

This needs that a lease is only given up in the store once its validity has ended. `release`
does it the other way round: until the response is there and the validity is taken back,
another process may acquire the lease (`release_overlap`).
-/

namespace Midge

open Prog List

/-! ## Documents -/

section Documents

variable (config : LeaseConfig)

/-- The document belongs to the process, with this epoch. -/
def LeaseConfig.Owns (h epoch : ℕ) (document : LeaseDocument) : Prop :=
  document.ownerToken = some (config.holder h).ownerToken ∧ document.epoch = some epoch

/-- Nobody finds the document expired by then. -/
def LeaseConfig.Covers (document : LeaseDocument) (validUntil : ℕ) : Prop :=
  ∀ g t, document.isExpiredWithTolerance config.clockSkewTolerance (config.clock g t) = true →
    validUntil < t

variable {config} {h g epoch epoch' validUntil s t : ℕ} {document document' : LeaseDocument}

theorem LeaseConfig.Owns.unique (hh : config.Owns h epoch document)
    (hg : config.Owns g epoch' document) : h = g ∧ epoch = epoch' :=
  ⟨config.token_injective (Option.some.inj (hh.1.symm.trans hg.1)),
    Option.some.inj (hh.2.symm.trans hg.2)⟩

theorem LeaseConfig.Covers.mono (hcovers : config.Covers document validUntil)
    (hle : document.expiresAt ≤ document'.expiresAt) : config.Covers document' validUntil := by
  intro g t hexpired
  refine hcovers g t ?_
  simp only [LeaseDocument.isExpiredWithTolerance, decide_eq_true_eq] at *
  omega

/-- The write says that a lease has expired. -/
def LeasePurpose.expires : LeasePurpose → Bool
  | .release => true
  | .cleanUp => true
  | _ => false

/-- A write that creates the document. -/
inductive LeaseWrite.Opens (config : LeaseConfig) : LeaseWrite → Prop
  | acquire {h epoch validFrom : ℕ} {document : LeaseDocument}
      (howns : config.Owns h epoch document) : Opens config ⟨document, .acquire validFrom⟩

/-- A write that replaces a document. -/
inductive LeaseWrite.Follows (config : LeaseConfig) (old : LeaseDocument) : LeaseWrite → Prop
  | acquire {h epoch validFrom g t : ℕ} {document : LeaseDocument}
      (howns : config.Owns h epoch document) (hepoch : old.epoch.getD 0 < epoch)
      (htime : t ≤ validFrom)
      (hexpired : old.isExpiredWithTolerance config.clockSkewTolerance (config.clock g t) = true) :
      Follows config old ⟨document, .acquire validFrom⟩
  | renew {expiresAt : ℤ} (hle : old.expiresAt ≤ expiresAt) :
      Follows config old ⟨{ old with expiresAt := expiresAt }, .renew⟩
  | expire {expiresAt : ℤ} {purpose : LeasePurpose} (hexpires : purpose.expires = true) :
      Follows config old ⟨{ old with expiresAt := expiresAt }, purpose⟩

end Documents

/-! ## The invariant -/

namespace LeaseWorld

/-- The lease has been granted, and its validity has ended. -/
def Spent (w : LeaseWorld) (h epoch : ℕ) : Prop := (h, epoch) ∈ w.grants ∧ w.Ended h epoch

/-- What every step keeps. -/
structure Le (w w' : LeaseWorld) : Prop where
  object : w.object.Le w'.object
  now : w.now ≤ w'.now
  grants : w.grants <+: w'.grants
  spent : ∀ h epoch, w.Spent h epoch → w'.Spent h epoch

/-- What the others leave alone while a thread holds the lock of a process: they do not grant
    leases to it, and only expire leases that have been granted. -/
structure Held (config : LeaseConfig) (h thread : ℕ) (w w' : LeaseWorld) : Prop where
  lock : w'.lock h = some thread
  grants : ∀ epoch, (h, epoch) ∈ w'.grants → (h, epoch) ∈ w.grants
  expiring : ∀ condition (write : LeaseWrite) epoch, (condition, write) ∈ w'.object.sent →
    write.purpose.expires = true → config.Owns h epoch write.document →
      (condition, write) ∈ w.object.sent ∨ (h, epoch) ∈ w.grants

def Rely (config : LeaseConfig) (thread : ℕ) (w w' : LeaseWorld) : Prop :=
  ∀ h, w.lock h = some thread → Held config h thread w w'

structure Inv (config : LeaseConfig) (w : LeaseWorld) : Prop where
  guarded : w.object.Guarded (LeaseWrite.Opens config) fun a b => b.Follows config a.document
  sent : ∀ version ∈ w.object.versions, ∃ condition, (condition, version.1) ∈ w.object.sent
  /-- The documents have been dated by their holders. -/
  dated : ∀ condition (write : LeaseWrite), (condition, write) ∈ w.object.sent →
    ∃ h epoch s, config.Owns h epoch write.document ∧ s ≤ w.now ∧
      write.document.expiresAt ≤ config.clock h s + (config.holder h).ttl
  begun : ∀ condition document validFrom,
    (condition, ⟨document, .acquire validFrom⟩) ∈ w.object.sent → validFrom ≤ w.now
  /-- Only leases whose validity has ended are expired. -/
  ended : ∀ condition (write : LeaseWrite), (condition, write) ∈ w.object.sent →
    write.purpose.expires = true → ∀ h epoch, config.Owns h epoch write.document → w.Ended h epoch
  /-- The validity is covered by a document. -/
  backed : ∀ h epoch validUntil, w.validity h = .active epoch validUntil →
    (h, epoch) ∈ w.grants ∧ ∃ version ∈ w.object.versions,
      config.Owns h epoch version.1.document ∧ config.Covers version.1.document validUntil
  granted : ∀ grant ∈ w.grants, ∃ version ∈ w.object.versions,
    config.Owns grant.1 grant.2 version.1.document
  ordered : w.grants.Pairwise fun a b => a.2 < b.2
  reconcilers : ∀ h document, (h, document) ∈ w.reconcilers →
    ∃ epoch, config.Owns h epoch document ∧ w.Spent h epoch

/-- A release is only sent once the validity of the lease has ended. -/
def Orderly (config : LeaseConfig) (w w' : LeaseWorld) : Prop :=
  ∀ condition document, (condition, ⟨document, .release⟩) ∈ w'.object.sent →
    (condition, ⟨document, .release⟩) ∈ w.object.sent ∨
      ∀ h epoch, config.Owns h epoch document → w.Ended h epoch

end LeaseWorld

/-- How the processes, the store and the time behave. -/
def leaseSemantics (config : LeaseConfig) :
    Semantics LeaseCall LeaseCall.Answer LeaseWorld where
  exec := LeaseWorld.Exec config
  env := LeaseWorld.Env
  inv := LeaseWorld.Inv config
  le := LeaseWorld.Le
  rely := LeaseWorld.Rely config

/-- The runs in which every lease is given up after its validity has ended. -/
abbrev orderlySemantics (config : LeaseConfig) :
    Semantics LeaseCall LeaseCall.Answer LeaseWorld :=
  (leaseSemantics config).restrict (LeaseWorld.Orderly config)

namespace LeaseWorld

variable {config : LeaseConfig} {w w' w'' : LeaseWorld} {h g epoch validUntil thread : ℕ}

theorem Le.refl (w : LeaseWorld) : Le w w :=
  ⟨CasObject.Le.refl _, le_rfl, prefix_rfl, fun _ _ hspent => hspent⟩

theorem Le.trans (hle : Le w w') (hle' : Le w' w'') : Le w w'' :=
  ⟨hle.object.trans hle'.object, hle.now.trans hle'.now, hle.grants.trans hle'.grants,
    fun h epoch hspent => hle'.spent h epoch (hle.spent h epoch hspent)⟩

theorem Held.refl (hlock : w.lock h = some thread) : Held config h thread w w :=
  ⟨hlock, fun _ hgrant => hgrant, fun _ _ _ hsent _ _ => .inl hsent⟩

theorem Held.trans (hheld : Held config h thread w w') (hheld' : Held config h thread w' w'') :
    Held config h thread w w'' := by
  refine ⟨hheld'.lock, fun epoch hgrant => hheld.grants epoch (hheld'.grants epoch hgrant),
    fun condition write epoch hsent hexpires howns => ?_⟩
  rcases hheld'.expiring condition write epoch hsent hexpires howns with hsent | hgrant
  · exact hheld.expiring condition write epoch hsent hexpires howns
  · exact .inr (hheld.grants epoch hgrant)

/-- The object, the time, the grants and the locks stay, and validity may only end. -/
structure Calm (w w' : LeaseWorld) : Prop where
  object : w'.object = w.object
  now : w'.now = w.now
  grants : w'.grants = w.grants
  reconcilers : w'.reconcilers = w.reconcilers
  lock : w'.lock = w.lock
  validity : ∀ h epoch validUntil, w'.validity h = .active epoch validUntil →
    w.validity h = .active epoch validUntil

theorem Calm.refl (w : LeaseWorld) : Calm w w := ⟨rfl, rfl, rfl, rfl, rfl, fun _ _ _ hv => hv⟩

theorem Calm.ended (hcalm : Calm w w') (hended : w.Ended h epoch) : w'.Ended h epoch :=
  fun validUntil hv => hcalm.now ▸ hended validUntil (hcalm.validity h epoch validUntil hv)

theorem Calm.le (hcalm : Calm w w') : Le w w' where
  object := hcalm.object ▸ CasObject.Le.refl _
  now := hcalm.now ▸ le_rfl
  grants := hcalm.grants ▸ prefix_rfl
  spent _ _ hspent := ⟨hcalm.grants ▸ hspent.1, hcalm.ended hspent.2⟩

theorem Calm.rely (hcalm : Calm w w') : Rely config thread w w' := fun _ hlock =>
  ⟨hcalm.lock ▸ hlock, fun _ hgrant => hcalm.grants ▸ hgrant,
    fun _ _ _ hsent _ _ => .inl (hcalm.object ▸ hsent)⟩

theorem Calm.inv (hcalm : Calm w w') (hinv : w.Inv config) : w'.Inv config where
  guarded := hcalm.object ▸ hinv.guarded
  sent := hcalm.object ▸ hinv.sent
  dated := by
    rw [hcalm.object, hcalm.now]
    exact hinv.dated
  begun := by
    rw [hcalm.object, hcalm.now]
    exact hinv.begun
  ended := by
    rw [hcalm.object]
    exact fun condition write hsent hexpires h epoch howns =>
      hcalm.ended (hinv.ended condition write hsent hexpires h epoch howns)
  backed h epoch validUntil hv := by
    rw [hcalm.object, hcalm.grants]
    exact hinv.backed h epoch validUntil (hcalm.validity h epoch validUntil hv)
  granted := by
    rw [hcalm.object, hcalm.grants]
    exact hinv.granted
  ordered := hcalm.grants ▸ hinv.ordered
  reconcilers h document hmem := by
    rw [hcalm.reconcilers] at hmem
    obtain ⟨epoch, howns, hspent⟩ := hinv.reconcilers h document hmem
    exact ⟨epoch, howns, hcalm.le.spent h epoch hspent⟩

/-! ## Time and the store -/

theorem Ended.mono_now (hended : w.Ended h epoch) (hvalidity : w'.validity = w.validity)
    (hnow : w.now ≤ w'.now) : w'.Ended h epoch :=
  fun validUntil hv => (hended validUntil (hvalidity ▸ hv)).trans hnow

theorem Inv.time (hinv : w.Inv config) {now : ℕ} (hnow : w.now ≤ now) :
    Inv config { w with now := now } where
  __ := hinv
  dated condition write hsent := by
    obtain ⟨h, epoch, s, howns, hs, hexpires⟩ := hinv.dated condition write hsent
    exact ⟨h, epoch, s, howns, hs.trans hnow, hexpires⟩
  begun condition document validFrom hsent := (hinv.begun condition document validFrom hsent).trans
    hnow
  ended condition write hsent hexpires h epoch howns :=
    (hinv.ended condition write hsent hexpires h epoch howns).mono_now rfl hnow
  reconcilers h document hmem := by
    obtain ⟨epoch, howns, hspent⟩ := hinv.reconcilers h document hmem
    exact ⟨epoch, howns, hspent.1, hspent.2.mono_now rfl hnow⟩

theorem Inv.lands (hinv : w.Inv config) {object : CasObject LeaseWrite}
    (hlands : w.object.Lands object) : Inv config { w with object := object } := by
  have hsame : object.sent = w.object.sent := by
    cases hlands with
    | intro => rfl
  have hversions : ∀ version ∈ object.versions,
      ∃ condition, (condition, version.1) ∈ w.object.sent := by
    cases hlands with
    | intro hsent haccepts hfresh =>
      intro version hmem
      rcases mem_append.1 hmem with hmem | hmem
      · exact hinv.sent version hmem
      · rw [mem_singleton.1 hmem]
        exact ⟨_, hsent⟩
  exact { hinv with
    guarded := hinv.guarded.lands hlands
    sent := by simpa only [hsame] using hversions
    dated := by simpa only [hsame] using hinv.dated
    begun := by simpa only [hsame] using hinv.begun
    ended := by
      simp only [hsame]
      exact hinv.ended
    backed := by
      intro h epoch validUntil hv
      obtain ⟨hgrant, version, hmem, hbacked⟩ := hinv.backed h epoch validUntil hv
      exact ⟨hgrant, version, hlands.le.mem hmem, hbacked⟩
    granted := by
      intro grant hgrant
      obtain ⟨version, hmem, howns⟩ := hinv.granted grant hgrant
      exact ⟨version, hlands.le.mem hmem, howns⟩ }

end LeaseWorld

instance orderlySemantics_lawful (config : LeaseConfig) : (orderlySemantics config).Lawful where
  refl := LeaseWorld.Le.refl
  trans := LeaseWorld.Le.trans
  rely_refl _ _ _ hlock := .refl hlock
  rely_trans hrely hrely' h hlock := (hrely h hlock).trans (hrely' h (hrely h hlock).lock)
  env := by
    intro w w' hinv henv
    cases henv with
    | time hnow =>
      exact ⟨⟨LeaseWorld.Inv.time hinv hnow, CasObject.Le.refl _, hnow, prefix_rfl,
        fun h epoch hspent => ⟨hspent.1, hspent.2.mono_now rfl hnow⟩⟩,
        fun i h hlock => { LeaseWorld.Held.refl hlock with }⟩
    | @lands object hlands =>
      have hsame : object.sent = w.object.sent := by
        cases hlands with
        | intro => rfl
      exact ⟨⟨LeaseWorld.Inv.lands hinv hlands, { LeaseWorld.Le.refl w with object := hlands.le }⟩,
        fun i h hlock => ⟨hlock, fun _ hgrant => hgrant,
          fun _ _ _ hsent _ _ => .inl (hsame ▸ hsent)⟩⟩

/-! ## The current document -/

namespace LeaseWorld

variable {config : LeaseConfig} {w w' w'' : LeaseWorld} {h g epoch validUntil thread : ℕ}
  {version : LeaseWrite × ℕ}

/-- As long as a document covers the time, and nobody has expired the lease, the current document
    is that of the same process and epoch. -/
theorem Inv.current_owns (hinv : w.Inv config) (hmem : version ∈ w.object.versions)
    (howns : config.Owns h epoch version.1.document)
    (hcovers : config.Covers version.1.document validUntil) (hnow : w.now < validUntil)
    (hexpiring : ∀ version ∈ w.object.versions, version.1.purpose.expires = true →
      ¬ config.Owns h epoch version.1.document) :
    ∃ current, w.object.current = some current ∧ config.Owns h epoch current.1.document := by
  have hlast : ∀ versions, versions <+: w.object.versions → version ∈ versions →
      ∃ last, versions.getLast? = some last ∧ config.Owns h epoch last.1.document ∧
        config.Covers last.1.document validUntil := by
    -- Along the history after the document: no acquisition may follow, a renewal covers more.
    refine fun versions hversions => hinv.guarded.history_induction
      (P := fun versions => versions <+: w.object.versions → version ∈ versions →
        ∃ last, versions.getLast? = some last ∧ config.Owns h epoch last.1.document ∧
          config.Covers last.1.document validUntil) ?_ ?_ ?_ versions hversions hversions
    · exact fun _ hmem => absurd hmem not_mem_nil
    · intro first _ _ hmem
      rw [mem_singleton.1 hmem] at howns hcovers
      exact ⟨first, rfl, howns, hcovers⟩
    · intro versions old new ih hfollows hversions hmem
      refine ⟨new, getLast?_concat, ?_⟩
      have hnew : new ∈ w.object.versions := hversions.subset (by simp)
      rcases mem_append.1 hmem with hmem | hmem
      · obtain ⟨last, hlast, howns, hcovers⟩ :=
          ih ((prefix_append _ _).trans hversions) hmem
        rw [getLast?_concat, Option.some.injEq] at hlast
        subst hlast
        obtain ⟨write, metadata⟩ := new
        cases hfollows with
        | acquire _ _ htime hexpired =>
          obtain ⟨condition, hsent⟩ := hinv.sent _ hnew
          have hbegun := hinv.begun _ _ _ hsent
          have hlt := hcovers _ _ hexpired
          omega
        | renew hle => exact ⟨howns, hcovers.mono hle⟩
        | expire hexpires => exact (hexpiring _ hnew hexpires howns).elim
      · rw [mem_singleton.1 hmem] at howns hcovers
        exact ⟨howns, hcovers⟩
  obtain ⟨last, hcurrent, howns, -⟩ := hlast _ prefix_rfl hmem
  exact ⟨last, hcurrent, howns⟩

/-- Later documents have higher epochs, unless they are of the same lease. -/
theorem Inv.epochs (hinv : w.Inv config) : w.object.versions.Pairwise fun a b =>
    a.1.document.epoch.getD 0 < b.1.document.epoch.getD 0 ∨
      (a.1.document.epoch = b.1.document.epoch ∧
        a.1.document.ownerToken = b.1.document.ownerToken) := by
  refine hinv.guarded.pairwise (T := fun a b =>
    a.document.epoch.getD 0 < b.document.epoch.getD 0 ∨
      (a.document.epoch = b.document.epoch ∧ a.document.ownerToken = b.document.ownerToken))
    (fun a b hfollows => ?_) fun a b c hab hbc => ?_
  · cases hfollows with
    | acquire howns hepoch htime hexpired => exact .inl (by rw [howns.2]; exact hepoch)
    | renew hle | expire hexpires => exact .inr ⟨rfl, rfl⟩
  · rcases hab with hab | ⟨hab, hab'⟩
    · rcases hbc with hbc | ⟨hbc, -⟩
      · exact .inl (hab.trans hbc)
      · exact .inl (hbc ▸ hab)
    · rcases hbc with hbc | ⟨hbc, hbc'⟩
      · exact .inl (hab ▸ hbc)
      · exact .inr ⟨hab.trans hbc, hab'.trans hbc'⟩

/-- No document has a higher epoch than the current one, and one of the same epoch has the same
    owner. -/
theorem Inv.le_current (hinv : w.Inv config) {current : LeaseWrite × ℕ}
    (hcurrent : w.object.current = some current) (hmem : version ∈ w.object.versions) :
    version.1.document.epoch.getD 0 < current.1.document.epoch.getD 0 ∨
      (version.1.document.epoch = current.1.document.epoch ∧
        version.1.document.ownerToken = current.1.document.ownerToken) := by
  obtain ⟨before, hbefore⟩ : ∃ before, w.object.versions = before ++ [current] :=
    getLast?_eq_some_iff.1 hcurrent
  have hepochs := hinv.epochs
  rw [hbefore, pairwise_append] at hepochs
  rw [hbefore] at hmem
  rcases mem_append.1 hmem with hmem | hmem
  · exact hepochs.2.2 version hmem current (by simp)
  · rw [mem_singleton.1 hmem]
    exact .inr ⟨rfl, rfl⟩

end LeaseWorld

end Midge
