import Midge.Cloud.Generation
import Midge.Lib.CasObject
import Midge.Lib.Interleave
import Mathlib.Order.Monotone.Basic

/-!
# The lease in the cloud

One object of the store is the lease document: it names the holder, its epoch, and when the
lease expires on the holder's wall clock. A process acquires the lease by a conditional write
once the document has expired, extends it by further ones, and releases it by writing that it
has expired.

A holder does not look at the document to know whether it may write. It keeps a validity of its
own, on its monotonic clock (`LeaseValidityState`), which begins before the document is written.

The operations are programs that call the store, the clocks and the shared state of their
process. A response may be late or lost, and a deadline may pass between any two calls.
-/

namespace Midge

open Prog

/-! ## Validity -/

/-- The validity of one acquisition, on the monotonic clock. -/
inductive LeaseValidityState
  | inactive
  | active (epoch validUntil : ℕ)
  | fenced (epoch : ℕ)
  deriving DecidableEq, Repr

/-- What is done to the validity. -/
inductive ValidityOperation
  | activate (epoch validUntil : ℕ)
  | advance (epoch candidateUntil : ℕ)
  | fence (epoch : ℕ)
  | deactivate (epoch : ℕ)
  | fenceIfExpired (epoch : ℕ)
  | remaining (epoch : ℕ)
  deriving DecidableEq, Repr

namespace LeaseValidityState

variable (state : LeaseValidityState) (now epoch : ℕ)

/-- The validity of an acquisition begins. -/
def activate (validUntil : ℕ) : LeaseValidityState × Except LeaseError ℕ :=
  if validUntil ≤ now then
    (state, .error (.internal "cloud lease expired before acquisition completed"))
  else match state with
  | .inactive => (.active epoch validUntil, .ok 0)
  | _ => (state, .error (.internal "cloud lease validity was already active"))

/-- A renewal extends the validity, unless it has been lost. -/
def advance (candidateUntil : ℕ) : LeaseValidityState × Except LeaseError ℕ :=
  match state with
  | .active activeEpoch validUntil =>
    if activeEpoch = epoch ∧ now < validUntil ∧ now < candidateUntil then
      (.active epoch candidateUntil, .ok 0)
    else (.fenced activeEpoch, .error (.renewalFailed
      "cloud lease renewal completed after monotonic validity was lost"))
  | .fenced _ => (state, .error (.renewalFailed "cloud lease acquisition is terminally fenced"))
  | .inactive => (state, .error (.internal "cloud lease validity is inactive"))

def fence : LeaseValidityState :=
  match state with
  | .active activeEpoch _ => if activeEpoch = epoch then .fenced epoch else state
  | _ => state

def deactivate : LeaseValidityState :=
  match state with
  | .active activeEpoch _ => if activeEpoch = epoch then .inactive else state
  | .fenced activeEpoch => if activeEpoch = epoch then .inactive else state
  | .inactive => state

def fenceIfExpired : LeaseValidityState :=
  match state with
  | .active activeEpoch validUntil =>
    if activeEpoch = epoch ∧ validUntil ≤ now then .fenced epoch else state
  | _ => state

/-- How long the lease is valid for the epoch. -/
def remaining : LeaseValidityState × Except LeaseError ℕ :=
  match state with
  | .active activeEpoch validUntil =>
    if activeEpoch = epoch then
      if now < validUntil then (state, .ok (validUntil - now))
      else (.fenced epoch, .error (.renewalFailed "lease renewal crossed monotonic expiry"))
    else (state, .error (.renewalFailed "lease is no longer valid for renewal"))
  | _ => (state, .error (.renewalFailed "lease is no longer valid for renewal"))

/-- Carry out an operation on the validity. -/
def perform : ValidityOperation → LeaseValidityState × Except LeaseError ℕ
  | .activate epoch validUntil => state.activate now epoch validUntil
  | .advance epoch candidateUntil => state.advance now epoch candidateUntil
  | .fence epoch => (state.fence epoch, .ok 0)
  | .deactivate epoch => (state.deactivate epoch, .ok 0)
  | .fenceIfExpired epoch => (state.fenceIfExpired now epoch, .ok 0)
  | .remaining epoch => state.remaining now epoch

end LeaseValidityState

/-! ## Holders and documents -/

/-- A process that may hold the lease. -/
structure LeaseHolder where
  holderId : String
  ownerToken : String
  ttl : ℕ
  deriving DecidableEq, Repr

/-- The processes and their wall clocks. Every process has drawn a token of its own. The
    clocks do not run backwards, and how far they are from the monotonic time differs by at most
    the tolerance. -/
structure LeaseConfig where
  holder : ℕ → LeaseHolder
  /-- What the wall clocks may differ by. -/
  clockSkewTolerance : ℕ
  /-- The wall clock of a process. -/
  clock : ℕ → ℕ → ℤ
  token_injective : Function.Injective fun h => (holder h).ownerToken
  clock_monotone : ∀ h, Monotone (clock h)
  clock_skew : ∀ h g t s, (clock h t - t) - (clock g s - s) ≤ clockSkewTolerance

/-- What a document is written for. An acquisition has checked that the lease had expired before
    its validity begins. -/
inductive LeasePurpose
  | acquire (validFrom : ℕ)
  | renew
  /-- The holder gives up a lease. -/
  | release
  /-- A lease that has been lost is expired. -/
  | cleanUp
  deriving DecidableEq, Repr

/-- A document to be written, and why. -/
structure LeaseWrite where
  document : LeaseDocument
  purpose : LeasePurpose
  deriving DecidableEq, Repr

/-- The lease has expired, beyond the tolerance. -/
def LeaseDocument.isExpiredWithTolerance (document : LeaseDocument) (tolerance : ℕ) (now : ℤ) :
    Bool :=
  decide (document.expiresAt + tolerance < now)

/-- The document is that of this holder and epoch. -/
def ownsDocument (document : LeaseDocument) (holderId ownerToken : String)
    (expectedEpoch : ℕ) : Bool :=
  document.holderId == holderId && document.ownerToken == some ownerToken &&
    document.epoch == some expectedEpoch

/-! ## Calls -/

/-- The response to a write of the document. -/
inductive LeasePut
  | ok
  /-- The precondition has failed, or there was a conflict. -/
  | rejected (message : String)
  | failed (message : String)
  | unexpected (message : String)
  /-- No response in time. -/
  | lost (message : String)

/-- The calls that the operations make. The first argument of those that concern the state of a
    process is the process. -/
inductive LeaseCall
  /-- Has the deadline passed? -/
  | expired
  /-- Is the scope of the acquisition still open? -/
  | scope
  /-- The monotonic time. -/
  | now
  /-- The wall clock. -/
  | clock (h : ℕ)
  | read
  | readSentinel
  | createSentinel
  | activateSentinel
  /-- Claim the metadata pointer. -/
  | claimPointer (h : ℕ) (document : LeaseDocument)
  | submit (write : LeaseWrite) (condition : Precondition)
  /-- Wait for the response to a write. -/
  | receive (write : LeaseWrite)
  | validity (h : ℕ) (operation : ValidityOperation)
  /-- Take the lock that acquisition and release hold. -/
  | lock (h : ℕ)
  | unlock (h : ℕ)
  | loadPendingRelease (h : ℕ)
  | storePendingRelease (h : ℕ) (epoch : Option ℕ)
  | loadAcquired (h : ℕ)
  | storeAcquired (h : ℕ) (acquired : Bool)
  | loadAcquiredEpoch (h : ℕ)
  | storeAcquiredEpoch (h : ℕ) (epoch : ℕ)
  /-- Start to watch for a renewal that may still arrive. -/
  | spawnReconciler (h : ℕ) (document : LeaseDocument)
  /-- The renewal that a reconciler has been started for. -/
  | takeReconciler (h : ℕ)

/-- The answers to the calls. -/
abbrev LeaseCall.Answer : LeaseCall → Type
  | .expired => Bool
  | .scope => Except LeaseError Unit
  | .now => ℕ
  | .clock _ => ℤ
  | .read => Except LeaseError (Option (LeaseDocument × ℕ))
  | .readSentinel => Except LeaseError AuthoritySentinelState
  | .createSentinel => Except LeaseError Unit
  | .activateSentinel => Except LeaseError Unit
  | .claimPointer _ _ => Except LeaseError Unit
  | .submit _ _ => Unit
  | .receive _ => LeasePut
  | .validity _ _ => Except LeaseError ℕ
  | .lock _ => Unit
  | .unlock _ => Unit
  | .loadPendingRelease _ => Option ℕ
  | .storePendingRelease _ _ => Unit
  | .loadAcquired _ => Bool
  | .storeAcquired _ _ => Unit
  | .loadAcquiredEpoch _ => ℕ
  | .storeAcquiredEpoch _ _ => Unit
  | .spawnReconciler _ _ => Unit
  | .takeReconciler _ => LeaseDocument

/-- Programs that work on the lease. -/
abbrev LeaseM := ExceptT LeaseError (Prog LeaseCall LeaseCall.Answer)

namespace LeaseM

/-- The deadline has not passed. -/
def deadline (error : LeaseError) : LeaseM Unit := do
  let expired ← ask LeaseCall.expired
  require (!expired) error

/-- The scope is open, if there is one. -/
def scope (withScope : Bool) : LeaseM Unit :=
  if withScope then do
    let answer ← ask LeaseCall.scope
    settle answer
  else return ()

/-- Operate on the validity of a process. -/
def validity (h : ℕ) (operation : ValidityOperation) : LeaseM ℕ := do
  let answer ← ask (LeaseCall.validity h operation)
  settle answer

/-- Read the document and its identity. -/
def read : LeaseM (Option (LeaseDocument × ℕ)) := do
  let answer ← ask LeaseCall.read
  settle answer

end LeaseM

/-! ## Writing the document -/

/-- The outcome is unknown. -/
def LeaseError.isAmbiguous : LeaseError → Bool
  | .ioError _ => true
  | .indeterminate _ => true
  | .timeout _ => true
  | _ => false

/-- Whether a write has arrived is found out by reading the document back. -/
def reconcileAmbiguousLeaseWrite (expected : LeaseDocument) (original : String) :
    LeaseM Unit := do
  LeaseM.deadline (.indeterminate
    (original ++ "; cloud lease write deadline expired before readback"))
  let result ← attempt LeaseM.read
  match result with
  | .ok (some (actual, _)) => require (actual = expected) (.ioError original)
  | .ok none => throw (.ioError original)
  | .error error => throw (.indeterminate (original ++
      "; cloud lease readback could not determine whether the write landed: " ++ error.text))

/-- Write the document. -/
def providerWriteDoc (write : LeaseWrite) (condition : Precondition) : LeaseM Unit := do
  LeaseM.deadline (.timeout "cloud lease PUT has no remaining budget")
  ask (LeaseCall.submit write condition)
  LeaseM.deadline (.indeterminate ("cloud lease PUT exhausted its submission budget; " ++
    "cloud lease write deadline expired before readback"))
  let response : LeasePut ← ask (LeaseCall.receive write)
  match response with
  | .ok => return ()
  | .rejected message =>
    throw (.acquisitionFailed ("cloud lease conditional write was rejected: " ++ message))
  | .failed message =>
    reconcileAmbiguousLeaseWrite write.document
      ("cloud lease conditional write failed: " ++ message)
  | .unexpected message =>
    reconcileAmbiguousLeaseWrite write.document
      ("unexpected cloud lease PUT response: " ++ message)
  | .lost message =>
    reconcileAmbiguousLeaseWrite write.document
      ("cloud lease PUT timed out: " ++ message)

namespace CloudStorageLease

variable (config : LeaseConfig) (h : ℕ)

/-! ## Acquisition -/

def missingInitializedLeaseError : LeaseError :=
  .indeterminate ("cloud metadata authority was initialized but the lease document is missing; " ++
    "refusing to reset its committed pointer")

def missingAuthoritySentinelError : LeaseError :=
  .indeterminate "V3 cloud lease is missing its permanent metadata authority sentinel"

/-- The marker of the metadata authority fits the document. -/
def checkSentinel (existing : Option LeaseDocument) (sentinel : AuthoritySentinelState) :
    LeaseM Unit :=
  match existing, sentinel with
  | none, .missing => do
    let answer ← ask LeaseCall.createSentinel
    settle answer
  | none, .pending => return ()
  | some _, .active => return ()
  | none, .active => throw missingInitializedLeaseError
  | some document, .pending => require document.committedMetadata.isNone (.indeterminate
      "pending cloud metadata authority marker accompanies committed metadata")
  | some _, .missing => throw missingAuthoritySentinelError

/-- The lease has expired, if there is one. -/
def checkExpired : Option LeaseDocument → LeaseM Unit
  | none => return ()
  | some existing => do
    let now ← ask (LeaseCall.clock h)
    require (existing.isExpiredWithTolerance config.clockSkewTolerance now)
      (.acquisitionFailed ("another instance holds the lease (holder: " ++ existing.holderId ++
        ", expires: " ++ toString existing.expiresAt ++ ")"))

/-- The document that may be replaced. -/
def readAcquisitionState : LeaseM (Option (LeaseDocument × ℕ)) := do
  let current ← LeaseM.read
  require (current.all fun current =>
    current.1.version = .v4 && current.1.committedMetadata.isNone) legacyMetadataMigrationError
  let answer ← ask LeaseCall.readSentinel
  let sentinel ← settle answer
  checkSentinel (current.map Prod.fst) sentinel
  checkExpired config h (current.map Prod.fst)
  return current

/-- The epoch of the next acquisition. -/
def nextEpoch (existing : Option LeaseDocument) (minimumEpoch : ℕ) : Except LeaseError ℕ :=
  let last := max ((existing.bind LeaseDocument.epoch).getD 0) minimumEpoch
  if last < usizeMax then .ok (last + 1) else .error .epochExhausted

/-- The document of an acquisition. -/
def acquiredDocument (epoch : ℕ) (now : ℤ) : LeaseDocument where
  version := .v4
  epoch := some epoch
  holderId := (config.holder h).holderId
  ownerToken := some (config.holder h).ownerToken
  acquiredAt := now
  expiresAt := now + (config.holder h).ttl
  committedMetadata := none

/-- The document is there, and the metadata pointer is claimed, before the validity begins. -/
def finishAcquisition (document : LeaseDocument) (epoch validUntil : ℕ) (withScope : Bool) :
    LeaseM Unit := do
  let current ← LeaseM.read
  require (current.map Prod.fst = some document) (.renewalFailed
    "cloud lease changed before metadata authority marker activation completed")
  LeaseM.scope withScope
  let claim ← ask (LeaseCall.claimPointer h document)
  settle claim
  let activation ← ask LeaseCall.activateSentinel
  settle activation
  LeaseM.scope withScope
  let _ ← LeaseM.validity h (.activate epoch validUntil)
  return ()

/-- Note the epoch for which a release may be needed. -/
def beginMutation (withScope : Bool) (epoch : ℕ) : LeaseM Unit :=
  if withScope then do
    LeaseM.scope true
    ask (LeaseCall.storePendingRelease h (some epoch))
  else return ()

/-- The condition under which a document is replaced. -/
def replacing (current : Option (LeaseDocument × ℕ)) : Precondition :=
  current.elim .ifAbsent fun current => .ifMatch current.2

def acquireWithCloud (minimumEpoch : ℕ) (withScope : Bool) : LeaseM ℕ := do
  let current ← readAcquisitionState config h
  let epoch ← settle (nextEpoch (current.map Prod.fst) minimumEpoch)
  let monotonicNow ← ask LeaseCall.now
  let now ← ask (LeaseCall.clock h)
  let document := acquiredDocument config h epoch now
  beginMutation h withScope epoch
  providerWriteDoc ⟨document, .acquire monotonicNow⟩ (replacing current)
  finishAcquisition h document epoch (monotonicNow + (config.holder h).ttl) withScope
  return epoch

/-- An acquisition whose scope has closed is not accepted. -/
def finishScope (withScope : Bool) : LeaseM Unit :=
  if withScope then do
    let answer ← attempt (LeaseM.scope true)
    match answer with
    | .ok () => return ()
    | .error error => throw (.indeterminate
        ("leader acquisition committed but ownership acceptance failed: " ++ error.text))
  else return ()

/-- The acquisition, under the lock. -/
def acquireLocked (minimumEpoch : ℕ) (withScope : Bool) : LeaseM Unit := do
  let pending : Option ℕ ← ask (LeaseCall.loadPendingRelease h)
  require pending.isNone (.alreadyAcquired "prior cloud lease release is still pending")
  let acquired : Bool ← ask (LeaseCall.loadAcquired h)
  require (!acquired) (.alreadyAcquired "lease already acquired by this instance")
  LeaseM.scope withScope
  let epoch ← acquireWithCloud config h minimumEpoch withScope
  finishScope withScope
  ask (LeaseCall.storeAcquiredEpoch h epoch)
  ask (LeaseCall.storeAcquired h true)
  ask (LeaseCall.storePendingRelease h none)
  LeaseM.scope withScope

/-- Carry out a program under the lock. -/
def underLock (program : LeaseM Unit) : LeaseM Unit := do
  ask (LeaseCall.lock h)
  let result ← attempt program
  ask (LeaseCall.unlock h)
  settle result

def acquireInScope (minimumEpoch : ℕ) (withScope : Bool) : LeaseM Unit := do
  LeaseM.scope withScope
  underLock h (acquireLocked config h minimumEpoch withScope)

/-! ## Release -/

/-- The document of a lease that has been given up. -/
def expiredDocument (current : LeaseDocument) (now : ℤ) : LeaseDocument :=
  { current with expiresAt := now - (config.clockSkewTolerance + millisecond : ℕ) }

/-- Give up the lease in the store. The number is that of the attempts before the deadline. -/
def releaseLeadership (purpose : LeasePurpose) (expectedEpoch : ℕ) : ℕ → LeaseM Unit
  | 0 => throw (.timeout "cloud lease release crossed its provider deadline")
  | attempts + 1 => do
    LeaseM.deadline (.timeout "cloud lease release crossed its provider deadline")
    let found ← LeaseM.read
    match found with
    | none => return ()
    | some (current, metadata) =>
      if current.version ≠ .v4 then return ()
      else if !ownsDocument current (config.holder h).holderId (config.holder h).ownerToken
          expectedEpoch then return ()
      else do
        let now ← ask (LeaseCall.clock h)
        LeaseM.deadline (.timeout "cloud lease release crossed its provider deadline")
        let result ← attempt (providerWriteDoc ⟨expiredDocument config current now, purpose⟩
          (.ifMatch metadata))
        match result with
        | .ok () => return ()
        | .error (.acquisitionFailed _) => releaseLeadership purpose expectedEpoch attempts
        | .error error => throw error

/-- Release the epoch: first in the store, then the validity. -/
def releaseEpoch (attempts releasedEpoch : ℕ) : LeaseM Unit := do
  let result ← attempt (releaseLeadership config h .release releasedEpoch attempts)
  let _ ← LeaseM.validity h (.deactivate releasedEpoch)
  ask (LeaseCall.storeAcquired h false)
  ask (LeaseCall.storeAcquiredEpoch h 0)
  ask (LeaseCall.storePendingRelease h (match result with
    | .ok () => none
    | .error _ => some releasedEpoch))
  settle result

/-- The release, under the lock. -/
def releaseLocked (attempts : ℕ) : LeaseM Unit := do
  let pending : Option ℕ ← ask (LeaseCall.loadPendingRelease h)
  match pending with
  | some epoch => releaseEpoch config h attempts epoch
  | none => do
    let acquired : Bool ← ask (LeaseCall.loadAcquired h)
    if acquired then do
      let epoch : ℕ ← ask (LeaseCall.loadAcquiredEpoch h)
      releaseEpoch config h attempts epoch
    else return ()

def release (attempts : ℕ) : LeaseM Unit := underLock h (releaseLocked config h attempts)

/-! ## Renewal -/

/-- The renewal has been written. -/
def advanceValidity (attempts expectedEpoch validUntil : ℕ) : LeaseM Unit := do
  let result : Except LeaseError ℕ ←
    ask (LeaseCall.validity h (.advance expectedEpoch validUntil))
  match result with
  | .ok _ => return ()
  | .error error => do
    let _ ← attempt (releaseLeadership config h .cleanUp expectedEpoch attempts)
    throw error

/-- The renewal may or may not be written: the validity ends, before the document may be
    expired. -/
def fenceRenewal (expectedEpoch : ℕ) (document : LeaseDocument) (error : LeaseError) :
    LeaseM Unit :=
  if error.isAmbiguous then do
    let _ ← LeaseM.validity h (.fence expectedEpoch)
    let _ : Unit ← ask (LeaseCall.spawnReconciler h document)
    throw error
  else throw error

/-- Extend the lease in the store. The numbers are those of the attempts before the deadline. -/
def renewLoop (releaseAttempts expectedEpoch : ℕ) : ℕ → LeaseM Unit
  | 0 => throw (.renewalFailed "cloud lease renewal crossed its bounded provider deadline")
  | attempts + 1 => do
    let _ ← LeaseM.validity h (.remaining expectedEpoch)
    LeaseM.deadline (.renewalFailed "cloud lease renewal crossed its bounded provider deadline")
    let found ← LeaseM.read
    match found with
    | none => throw (.renewalFailed "cloud lease document disappeared")
    | some (existing, metadata) => do
      require (existing.version = .v4 && ownsDocument existing (config.holder h).holderId
        (config.holder h).ownerToken expectedEpoch) (.renewalFailed
          ("cloud lease ownership changed (holder: " ++ existing.holderId ++ ", epoch: " ++
            toString existing.epoch ++ ")"))
      let now ← ask (LeaseCall.clock h)
      require (!existing.isExpiredWithTolerance config.clockSkewTolerance now)
        (.renewalFailed "cloud lease expired before renewal")
      let monotonicNow ← ask LeaseCall.now
      let now ← ask (LeaseCall.clock h)
      let document := { existing with expiresAt := now + (config.holder h).ttl }
      LeaseM.deadline (.renewalFailed "cloud lease renewal crossed its bounded provider deadline")
      let result ← attempt (providerWriteDoc ⟨document, .renew⟩ (.ifMatch metadata))
      match result with
      | .ok () =>
        advanceValidity config h releaseAttempts expectedEpoch
          (monotonicNow + (config.holder h).ttl)
      | .error (.acquisitionFailed _) => renewLoop releaseAttempts expectedEpoch attempts
      | .error error => fenceRenewal h expectedEpoch document error

def renewLeadership (releaseAttempts expectedEpoch attempts : ℕ) : LeaseM Unit := do
  let window ← LeaseM.validity h (.remaining expectedEpoch)
  require (renewalWriteDeadlineMargin < window) (.renewalFailed
    "insufficient monotonic validity remains for bounded provider renewal")
  renewLoop config h releaseAttempts expectedEpoch attempts

/-- The renewal itself. -/
def renewAcquired (releaseAttempts expectedEpoch attempts : ℕ) : LeaseM Unit := do
  let acquired : Bool ← ask (LeaseCall.loadAcquired h)
  require acquired (.renewalFailed "lease not acquired")
  let _ ← LeaseM.validity h (.remaining expectedEpoch)
  renewLeadership config h releaseAttempts expectedEpoch attempts

/-- The lease is lost: the validity ends, and a release is noted. -/
def loseLease (expectedEpoch : ℕ) : LeaseM Unit := do
  let _ ← LeaseM.validity h (.fence expectedEpoch)
  underLock h do
    let acquired : Bool ← ask (LeaseCall.loadAcquired h)
    let epoch : ℕ ← ask (LeaseCall.loadAcquiredEpoch h)
    if acquired && epoch == expectedEpoch then do
      ask (LeaseCall.storePendingRelease h (some expectedEpoch))
      ask (LeaseCall.storeAcquired h false)
      ask (LeaseCall.storeAcquiredEpoch h 0)
    else return ()

/-- The renewal may be tried again: the store did not answer, and the lease is still valid. -/
def isTransientRenewalFailure (error : LeaseError) (epoch : ℕ) : LeaseM Bool :=
  if error.isAmbiguous then do
    let result ← attempt (LeaseM.validity h (.remaining epoch))
    return result.isOk
  else return false

def renew (releaseAttempts attempts : ℕ) : LeaseM Unit := do
  let expectedEpoch : ℕ ← ask (LeaseCall.loadAcquiredEpoch h)
  let result ← attempt (renewAcquired config h releaseAttempts expectedEpoch attempts)
  match result with
  | .ok () => return ()
  | .error error => do
    let transient ← isTransientRenewalFailure h error expectedEpoch
    if transient then throw error
    else do
      loseLease h expectedEpoch
      throw error

/-! ## Reconciliation -/

/-- How long a renewal is watched for. -/
def reconcileUntil (expected : LeaseDocument) : ℤ :=
  expected.expiresAt + config.clockSkewTolerance + second

/-- Expire the document if the renewal has arrived. The number is that of the polls. -/
def reconcileLoop (expected : LeaseDocument) : ℕ → LeaseM Unit
  | 0 => return ()
  | polls + 1 => do
    let now : ℤ ← ask (LeaseCall.clock h)
    if now ≤ reconcileUntil config expected then do
      let result ← attempt LeaseM.read
      match result with
      | .ok (some (current, metadata)) =>
        if current.epoch = expected.epoch ∧ current.holderId = expected.holderId ∧
            current.ownerToken = expected.ownerToken then do
          let now ← ask (LeaseCall.clock h)
          if current.isExpiredWithTolerance config.clockSkewTolerance now then
            reconcileLoop expected polls
          else do
            let now ← ask (LeaseCall.clock h)
            let _ ← attempt (providerWriteDoc ⟨expiredDocument config current now, .cleanUp⟩
              (.ifMatch metadata))
            reconcileLoop expected polls
        else return ()
      | .ok none => reconcileLoop expected polls
      | .error _ => reconcileLoop expected polls
    else return ()

/-- Watch for a renewal that may still arrive. -/
def reconcileRenewal (polls : ℕ) : LeaseM Unit := do
  let expected : LeaseDocument ← ask (LeaseCall.takeReconciler h)
  reconcileLoop config h expected polls

end CloudStorageLease

/-- An operation of a process, or one of its threads. -/
inductive LeaseOperation
  | acquire (minimumEpoch : ℕ) (withScope : Bool)
  | renew (releaseAttempts attempts : ℕ)
  | release (attempts : ℕ)
  | reconcile (polls : ℕ)
  /-- A check of the validity, or the end of the validity after a lost heartbeat. -/
  | check (epoch : ℕ)
  | watch (epoch : ℕ)
  | fence (epoch : ℕ)
  deriving DecidableEq, Repr

/-- Carry out an operation. -/
def LeaseOperation.run (config : LeaseConfig) (h : ℕ) : LeaseOperation → LeaseM Unit
  | .acquire minimumEpoch withScope => CloudStorageLease.acquireInScope config h minimumEpoch withScope
  | .renew releaseAttempts attempts => CloudStorageLease.renew config h releaseAttempts attempts
  | .release attempts => CloudStorageLease.release config h attempts
  | .reconcile polls => CloudStorageLease.reconcileRenewal config h polls
  | .check epoch => do
    let _ ← LeaseM.validity h (.remaining epoch)
    return ()
  | .watch epoch => do
    let _ ← LeaseM.validity h (.fenceIfExpired epoch)
    return ()
  | .fence epoch => do
    let _ ← LeaseM.validity h (.fence epoch)
    return ()

/-! ## The world -/

/-- The store, the time, and the states of the processes. -/
structure LeaseWorld where
  /-- The monotonic time. -/
  now : ℕ := 0
  object : CasObject LeaseWrite := {}
  validity : ℕ → LeaseValidityState := fun _ => .inactive
  /-- The thread that holds the lock of a process. -/
  lock : ℕ → Option ℕ := fun _ => none
  pendingRelease : ℕ → Option ℕ := fun _ => none
  acquired : ℕ → Bool := fun _ => false
  acquiredEpoch : ℕ → ℕ := fun _ => 0
  /-- The renewals that reconcilers have been started for. -/
  reconcilers : List (ℕ × LeaseDocument) := []
  /-- The leases that have been granted, with their epochs, from the first. -/
  grants : List (ℕ × ℕ) := []

namespace LeaseWorld

variable (w : LeaseWorld)

/-- The document that a read finds. -/
def current : Option (LeaseDocument × ℕ) :=
  w.object.current.map fun version => (version.1.document, version.2)

/-- Operate on the validity of a process. A lease is granted when its validity begins. -/
def operate (h : ℕ) (operation : ValidityOperation) : LeaseWorld :=
  let result := (w.validity h).perform w.now operation
  { w with
    validity := Function.update w.validity h result.1
    grants := match operation, result.2 with
      | .activate epoch _, .ok _ => w.grants ++ [(h, epoch)]
      | _, _ => w.grants }

/-- A write may be answered by success only if it has arrived. -/
def Receives (write : LeaseWrite) : LeasePut → Prop
  | .ok => ∃ metadata, (write, metadata) ∈ w.object.versions
  | _ => True

/-- How a call is answered. -/
def Exec (config : LeaseConfig) (thread : ℕ) (w : LeaseWorld) :
    (call : LeaseCall) → call.Answer → LeaseWorld → Prop
  | .expired, _, w' => w' = w
  | .scope, _, w' => w' = w
  | .now, answer, w' => answer = w.now ∧ w' = w
  | .clock h, answer, w' => answer = config.clock h w.now ∧ w' = w
  | .read, answer, w' => (∀ found, answer = .ok found → found = w.current) ∧ w' = w
  | .readSentinel, _, w' => w' = w
  | .createSentinel, _, w' => w' = w
  | .activateSentinel, _, w' => w' = w
  | .claimPointer _ _, _, w' => w' = w
  | .submit write condition, _, w' => w' = { w with object := w.object.submit condition write }
  | .receive write, answer, w' => w.Receives write answer ∧ w' = w
  | .validity h operation, answer, w' =>
    answer = ((w.validity h).perform w.now operation).2 ∧ w' = w.operate h operation
  | .lock h, _, w' => w.lock h = none ∧ w' = { w with lock := Function.update w.lock h thread }
  | .unlock h, _, w' => w' = { w with lock := Function.update w.lock h none }
  | .loadPendingRelease h, answer, w' => answer = w.pendingRelease h ∧ w' = w
  | .storePendingRelease h epoch, _, w' =>
    w' = { w with pendingRelease := Function.update w.pendingRelease h epoch }
  | .loadAcquired h, answer, w' => answer = w.acquired h ∧ w' = w
  | .storeAcquired h acquired, _, w' =>
    w' = { w with acquired := Function.update w.acquired h acquired }
  | .loadAcquiredEpoch h, answer, w' => answer = w.acquiredEpoch h ∧ w' = w
  | .storeAcquiredEpoch h epoch, _, w' =>
    w' = { w with acquiredEpoch := Function.update w.acquiredEpoch h epoch }
  | .spawnReconciler h document, _, w' =>
    w' = { w with reconcilers := (h, document) :: w.reconcilers }
  | .takeReconciler h, answer, w' => (h, answer) ∈ w.reconcilers ∧ w' = w

/-- Time passes, or a request that has been sent arrives. -/
inductive Env (w : LeaseWorld) : LeaseWorld → Prop
  | time {now : ℕ} (hnow : w.now ≤ now) : Env w { w with now := now }
  | lands {object : CasObject LeaseWrite} (hlands : w.object.Lands object) :
      Env w { w with object := object }

/-- The validity of the process for the epoch has ended. -/
def Ended (h epoch : ℕ) : Prop :=
  ∀ validUntil, w.validity h = .active epoch validUntil → validUntil ≤ w.now

end LeaseWorld

end Midge
