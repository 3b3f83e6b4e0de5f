import Midge.Cloud.Generation
import Midge.Lib.CasObject
import Midge.Lib.Interleave

/-!
# The metadata pointer in the cloud

One object of the store names the committed metadata generation and the writer who may
replace it. A writer claims the pointer with its epoch before it starts
(`claimMetadataPointer`), and publishes generations by replacing it
(`publishSeparateMetadata`). Both are conditional writes: they take effect only if the
pointer is still the version that was read.

The operations are programs that call the store. A response may be late or lost, a deadline
may pass, and the lease may become invalid between any two calls (`pointerSemantics`).
-/

namespace Midge

/-- The pointer to the committed generation. -/
structure MetadataPointer where
  writerEpoch : ℕ
  holderId : String
  ownerToken : String
  committed : Option CloudMetadataGeneration
  deriving DecidableEq, Repr

/-- What a reader finds out about the committed metadata. -/
inductive CloudMetadataHead
  | missingLease
  | uncommitted
  | committed (generation : CloudMetadataGeneration)
  deriving DecidableEq, Repr

/-- A store as one process sees it. The number stands for the process's own cache. -/
structure ProviderLeaderStore where
  cache : ℕ
  ownerToken : String
  deriving DecidableEq, Repr

/-- The pointer belongs to this writer. -/
def MetadataPointer.owns (pointer : MetadataPointer) (store : ProviderLeaderStore)
    (holderId : String) (epoch : ℕ) : Bool :=
  pointer.writerEpoch == epoch && pointer.holderId == holderId &&
    pointer.ownerToken == store.ownerToken

/-- The head that a pointer stands for. -/
def MetadataPointer.head (pointer : MetadataPointer) : CloudMetadataHead :=
  pointer.committed.elim .uncommitted .committed

/-- An operation on the pointer, with its arguments. -/
inductive PointerOperation
  | claim (store : ProviderLeaderStore) (document : LeaseDocument)
  | publish (store : ProviderLeaderStore) (holderId : String) (epoch : ℕ)
      (previous : Option CloudMetadataGeneration) (generation : CloudMetadataGeneration)
  | readHead (store : ProviderLeaderStore)
  | cachedHead (store : ProviderLeaderStore) (holderId : String) (epoch : ℕ)
  deriving DecidableEq, Repr

/-- A pointer to be written, and the operation that writes it. -/
structure PointerWrite where
  author : PointerOperation
  pointer : MetadataPointer
  deriving DecidableEq, Repr

/-! ## Calls -/

/-- The answer to a read of the pointer. -/
inductive PointerGet
  /-- The object: its decoded content, the identity for conditional writes, and whether its
      length is that of the content. -/
  | found (content : Except String MetadataPointer) (identity : Option ℕ) (sized : Bool)
  | notFound
  | failed (error : LeaseError)

/-- The response to a write. -/
inductive PointerPut
  /-- The identity of the new version, and whether its checksum is that of the content. -/
  | receipt (identity : ℕ) (matching : Bool)
  | noReceipt
  | preconditionFailed (message : String)
  | failed
  /-- No response in time. -/
  | lost

/-- The calls that the operations make. -/
inductive PointerCall
  /-- Has the deadline passed? -/
  | expired
  /-- How long is the lease valid for the epoch? -/
  | remaining (epoch : ℕ)
  | get
  | readSentinel
  | readLease
  | submit (write : PointerWrite) (condition : Precondition)
  /-- Wait for the response to a write. -/
  | receive (write : PointerWrite)
  | cached (cache : ℕ)
  | cachePointer (cache : ℕ) (pointer : MetadataPointer) (metadata : ℕ)

/-- The answers to the calls. -/
abbrev PointerCall.Answer : PointerCall → Type
  | .expired => Bool
  | .remaining _ => Except LeaseError ℕ
  | .get => PointerGet
  | .readSentinel => Except LeaseError AuthoritySentinelState
  | .readLease => Except LeaseError (Option LeaseDocument)
  | .submit _ _ => Unit
  | .receive _ => PointerPut
  | .cached _ => Option (MetadataPointer × ℕ)
  | .cachePointer _ _ _ => Unit

/-- Programs that work on the pointer. -/
abbrev PointerM := ExceptT LeaseError (Prog PointerCall PointerCall.Answer)

open Prog

namespace PointerM

/-- The deadline has not passed. -/
def deadline (message : String) : PointerM Unit := do
  let expired ← ask PointerCall.expired
  require (!expired) (.timeout message)

/-- The deadline of the operation has not passed. -/
def remaining : PointerM Unit := deadline "metadata pointer deadline exhausted"

/-- The lease is valid for the epoch. -/
def validity (epoch : ℕ) : PointerM ℕ := do
  let result ← ask (PointerCall.remaining epoch)
  settle result

end PointerM

/-! ## Reading and writing the pointer -/

/-- Check what was read. -/
def checkPointer : PointerGet → Except LeaseError (Option (MetadataPointer × ℕ))
  | .found content identity sized => do
    let metadata ← identity.elim
      (.error (.indeterminate "metadata pointer has no conditional identity")) .ok
    if !sized then .error (.indeterminate "metadata pointer length differs from identity")
    else match content with
    | .error error => .error (.indeterminate ("metadata pointer decode: " ++ error))
    | .ok pointer =>
      if pointer.writerEpoch = 0 ∨ pointer.holderId.isEmpty ∨ pointer.ownerToken.isEmpty then
        .error (.indeterminate "metadata pointer writer identity is invalid")
      else do
        pointer.committed.elim (.ok ()) validateMetadataGeneration
        .ok (some (pointer, metadata))
  | .notFound => .ok none
  | .failed error => .error error

/-- Read the pointer and its identity. -/
def readPointer : PointerM (Option (MetadataPointer × ℕ)) := do
  let answer ← ask PointerCall.get
  settle (checkPointer answer)

/-- Without a response the pointer is read back. -/
def readBack (write : PointerWrite) : PointerM ℕ := do
  PointerM.remaining
  let found ← readPointer
  match found with
  | some (actual, metadata) =>
    require (actual = write.pointer)
      (.indeterminate "metadata pointer CAS was not proven by readback")
    return metadata
  | none => throw (.indeterminate "metadata pointer CAS was not proven by readback")

/-- Write the pointer, and make sure that it has been written. -/
def writePointer (write : PointerWrite) (condition : Precondition) : PointerM ℕ := do
  PointerM.remaining
  ask (PointerCall.submit write condition)
  PointerM.remaining
  let outcome : PointerPut ← ask (PointerCall.receive write)
  match outcome with
  | .receipt metadata true => return metadata
  | .receipt _ false => throw (.indeterminate "metadata pointer checksum receipt mismatch")
  | .preconditionFailed message =>
    throw (.acquisitionFailed ("metadata pointer CAS rejected: " ++ message))
  | .noReceipt | .failed | .lost => readBack write

/-! ## The cache -/

/-- The cached pointer is newer. -/
def supersedes (current pointer : MetadataPointer) : Bool :=
  decide (pointer.writerEpoch < current.writerEpoch) ||
    (current.writerEpoch == pointer.writerEpoch &&
      -- The order of `Option`: none is below all generations.
      match current.committed, pointer.committed with
      | some new, some old => decide (old.id < new.id)
      | some _, none => true
      | none, _ => false)

/-- The cache after a pointer is put into it. -/
def nextCache (cache : Option (MetadataPointer × ℕ)) (pointer : MetadataPointer)
    (metadata : ℕ) : Option (MetadataPointer × ℕ) :=
  if cache.any fun current => supersedes current.1 pointer then cache
  else some (pointer, metadata)

/-- The pointer that the writer owns, with its identity. -/
def writerPointer (store : ProviderLeaderStore) (holderId : String) (epoch : ℕ) :
    PointerM (MetadataPointer × ℕ) := do
  PointerM.deadline "metadata admission deadline exhausted"
  let _ ← PointerM.validity epoch
  let cached : Option (MetadataPointer × ℕ) ← ask (PointerCall.cached store.cache)
  let found ← cached.elim readPointer fun cached => return some cached
  match found with
  | none => throw (.indeterminate "initialized metadata pointer disappeared")
  | some current =>
    require (current.1.owns store holderId epoch)
      (.renewalFailed "metadata pointer writer epoch or owner changed")
    let _ ← PointerM.validity epoch
    return current

/-! ## Operations -/

/-- The pointer after a claim: the writer is replaced, the generation kept. -/
def claimed (store : ProviderLeaderStore) (document : LeaseDocument) (epoch : ℕ)
    (current : Option (MetadataPointer × ℕ)) : MetadataPointer where
  writerEpoch := epoch
  holderId := document.holderId
  ownerToken := store.ownerToken
  committed := current.bind fun current => current.1.committed

/-- Write the claim, and try again if the pointer has changed. -/
def claimSwap (store : ProviderLeaderStore) (document : LeaseDocument) (epoch : ℕ)
    (current : Option (MetadataPointer × ℕ)) (condition : Precondition)
    (retry : PointerM Unit) : PointerM Unit := do
  let replacement := claimed store document epoch current
  let result ← attempt (writePointer ⟨.claim store document, replacement⟩ condition)
  match result with
  | .ok metadata => ask (PointerCall.cachePointer store.cache replacement metadata)
  | .error (.acquisitionFailed _) => retry
  | .error error => throw error

/-- Claim the pointer. The number is that of the attempts before the deadline. -/
def claimLoop (store : ProviderLeaderStore) (document : LeaseDocument) (epoch : ℕ) :
    ℕ → PointerM Unit
  | 0 => throw (.timeout "metadata pointer deadline exhausted")
  | attempts + 1 => do
    PointerM.remaining
    let current ← readPointer
    match current with
    | none => do
      PointerM.remaining
      let answer ← ask PointerCall.readSentinel
      let sentinel ← settle answer
      require (sentinel = .pending)
        (.indeterminate "initialized metadata pointer disappeared; refusing empty repair")
      claimSwap store document epoch none .ifAbsent (claimLoop store document epoch attempts)
    | some (pointer, metadata) =>
      if pointer.owns store document.holderId epoch then
        ask (PointerCall.cachePointer store.cache pointer metadata)
      else do
        require (pointer.writerEpoch < epoch)
          (.renewalFailed "metadata pointer belongs to a newer or different writer")
        claimSwap store document epoch (some (pointer, metadata)) (.ifMatch metadata)
          (claimLoop store document epoch attempts)

/-- Claim the pointer for the epoch of the lease. -/
def claimMetadataPointer (attempts : ℕ) (store : ProviderLeaderStore) (document : LeaseDocument) :
    PointerM Unit := do
  let epoch ← settle (document.epoch.elim (.error .epochExhausted) .ok)
  require (document.version = .v4) legacyMetadataMigrationError
  claimLoop store document epoch attempts

/-- Replace the committed generation. -/
def publishSeparateMetadata (store : ProviderLeaderStore) (holderId : String) (epoch : ℕ)
    (previous : Option CloudMetadataGeneration) (generation : CloudMetadataGeneration) :
    PointerM Unit := do
  settle (validateMetadataGeneration generation)
  let budget ← PointerM.validity epoch
  require (renewalWriteDeadlineMargin < budget)
    (.renewalFailed "insufficient validity for metadata pointer CAS")
  PointerM.remaining
  let current ← writerPointer store holderId epoch
  require (current.1.owns store holderId epoch)
    (.renewalFailed "metadata pointer writer epoch or owner changed")
  let _ ← PointerM.validity epoch
  if current.1.committed = some generation then return ()
  else do
    require (current.1.committed = previous)
      (.acquisitionFailed "metadata pointer predecessor changed")
    settle (generation.validateSuccessor current.1.committed)
    let replacement := { current.1 with committed := some generation }
    let metadata ← writePointer
      ⟨.publish store holderId epoch previous generation, replacement⟩ (.ifMatch current.2)
    let _ ← PointerM.validity epoch
    ask (PointerCall.cachePointer store.cache replacement metadata)

/-- The committed generation as the owner knows it. -/
def cachedMetadataHead (store : ProviderLeaderStore) (holderId : String) (epoch : ℕ) :
    PointerM CloudMetadataHead := do
  let current ← writerPointer store holderId epoch
  return current.1.head

/-- The committed generation as the store has it. -/
def readSeparateMetadataHead (store : ProviderLeaderStore) : PointerM CloudMetadataHead := do
  PointerM.remaining
  let pointer ← readPointer
  PointerM.remaining
  let answer ← ask PointerCall.readLease
  let lease ← settle answer
  require (lease.all fun lease => lease.version = .v4) legacyMetadataMigrationError
  PointerM.remaining
  let answer ← ask PointerCall.readSentinel
  let sentinel ← settle answer
  match pointer, lease, sentinel with
  | some (pointer, metadata), some _, .active => do
    ask (PointerCall.cachePointer store.cache pointer metadata)
    return pointer.head
  | some (pointer, _), some _, .pending => do
    require pointer.committed.isNone
      (.indeterminate "initialized cloud metadata authority is missing or inconsistent")
    return .uncommitted
  | none, some _, .pending => return .uncommitted
  | none, none, .missing | none, none, .pending => return .missingLease
  | _, _, _ =>
    throw (.indeterminate "initialized cloud metadata authority is missing or inconsistent")

/-- Carry out an operation, and say whether it succeeded. -/
def PointerOperation.run (attempts : ℕ) : PointerOperation → PointerM Unit
  | .claim store document => claimMetadataPointer attempts store document
  | .publish store holderId epoch previous generation =>
    publishSeparateMetadata store holderId epoch previous generation
  | .readHead store => do
    let _ ← readSeparateMetadataHead store
    return ()
  | .cachedHead store holderId epoch => do
    let _ ← cachedMetadataHead store holderId epoch
    return ()

/-- An operation as a program of its own, which ends with its name and its result. -/
def PointerOperation.program (attempts : ℕ) (operation : PointerOperation) :
    Prog PointerCall PointerCall.Answer (PointerOperation × Except LeaseError Unit) :=
  (operation.run attempts).run.bind fun result => .ret (operation, result)

/-! ## The store -/

/-- The object, and the caches of the processes. -/
structure PointerWorld where
  object : CasObject PointerWrite := {}
  caches : ℕ → Option (MetadataPointer × ℕ) := fun _ => none

namespace PointerWorld

variable (w : PointerWorld)

/-- The pointer has been a version of the object, with this identity. -/
def Holds (pointer : MetadataPointer) (metadata : ℕ) : Prop :=
  ∃ write : PointerWrite, (write, metadata) ∈ w.object.versions ∧ write.pointer = pointer

/-- What a read may be answered with: the current version, or some failure. -/
def Finds : PointerGet → Prop
  | .found (.ok pointer) (some metadata) _ =>
    ∃ write : PointerWrite, w.object.current = some (write, metadata) ∧ write.pointer = pointer
  | .found _ _ _ => True
  | .notFound => w.object.current = none
  | .failed _ => True

/-- What a write may be answered with. A receipt is only given for a version that has been
    written; apart from that, the response says nothing about the write. -/
def Receipts (write : PointerWrite) : PointerPut → Prop
  | .receipt metadata true => w.Holds write.pointer metadata
  | _ => True

/-- Put a pointer into a cache. -/
def cachePointer (cache : ℕ) (pointer : MetadataPointer) (metadata : ℕ) : PointerWorld :=
  let next := nextCache (w.caches cache) pointer metadata
  { w with caches := Function.update w.caches cache next }

/-- How a call is answered. -/
def Exec (w : PointerWorld) : (call : PointerCall) → call.Answer → PointerWorld → Prop
  | .expired, _, w' => w' = w
  | .remaining _, _, w' => w' = w
  | .get, answer, w' => w.Finds answer ∧ w' = w
  | .readSentinel, _, w' => w' = w
  | .readLease, _, w' => w' = w
  | .submit write condition, _, w' => w' = { w with object := w.object.submit condition write }
  | .receive write, answer, w' => w.Receipts write answer ∧ w' = w
  | .cached cache, answer, w' => answer = w.caches cache ∧ w' = w
  | .cachePointer cache pointer metadata, _, w' =>
    w' = w.cachePointer cache pointer metadata

end PointerWorld

end Midge
