import Midge.Wal.Ledger

/-!
# The LEDGER journal

The ledger is kept in the file `LEDGER`: a header, a frame with a snapshot of the
ledger, and a frame for each edit since. A frame is the length of its payload, a
checksum of the length and the payload, and the payload, a JSON text. JSON is not
modelled: `JsonCodec` stands for the encoder and the decoder.

An edit is appended as one frame, and acknowledged once the file has been synced; so a
crash can only tear the last frame. A snapshot is published whole: written to another
file, that is then renamed over `LEDGER`.

Every call of the file system may fail, with or without having taken effect; `Disk` is
what is known then of the bytes that are there after a crash.
-/

namespace Midge

open Update

/-! ## Frames -/

/-- The payload of a frame, as it is encoded. -/
inductive FrameImage
  | snapshot (image : LedgerImage)
  | edit (edit : LedgerEdit)
  deriving DecidableEq, Repr

/-- The payload of a frame. -/
inductive Frame
  | snapshot (ledger : WalLedger)
  | edit (edit : LedgerEdit)
  deriving DecidableEq

/-- The JSON encoder and decoder. -/
structure JsonCodec where
  toVec : FrameImage → List Byte
  fromSlice : List Byte → Except String FrameImage

/-- The magic of the file. -/
def ledgerMagic : List Byte := "MDGLEDGR".toList.map fun c => byte c.toNat

def ledgerVersion : ℕ := 2

/-- The header of the file. -/
def ledgerHeader : List Byte := ledgerMagic ++ toLe 4 ledgerVersion

def ledgerHeaderLen : ℕ := 12

/-- The length and the checksum before each payload. -/
def frameHeaderLen : ℕ := 8

/-- Edits appended after a snapshot before the store compacts. -/
def compactAfterEdits : ℕ := 1024

/-- The text of a ledger error. -/
def LedgerError.display : LedgerError → String
  | .notOpenSegment seals openSegment =>
    s!"cannot seal WAL segment {seals}: the open segment is {openSegment}"
  | .notNextSegment opens nextSegmentId =>
    s!"cannot open WAL segment {opens}: the next segment id is {nextSegmentId}"
  | .badLogStart below logStart openSegment =>
    s!"cannot advance the WAL log start to {below}: it must exceed {logStart} " ++
      s!"and not pass the open segment {openSegment}"
  | .badSetAside start opens logStart nextSegmentId =>
    s!"cannot set aside WAL segments from {start} opening {opens}: from must be " ++
      s!"at least the log start {logStart} and open at least the next segment " ++
      s!"id {nextSegmentId}"
  | .brokenChain reason => s!"the WAL ledger edit breaks the chain: {reason}"
  | .reservationNotRaised through reservedThrough =>
    s!"cannot reserve WAL sequences through {through}: the reservation already reaches " ++
      s!"{reservedThrough}"
  | .segmentIdsExhausted => "WAL segment ids are exhausted"
  | .unreachableState reason => s!"the WAL ledger state is unreachable: {reason}"

/-- A refused edit is a mistake of the caller, not damage on disk. -/
def LedgerError.toMidge (error : LedgerError) : MidgeError :=
  match error with
  | .segmentIdsExhausted => .resourceLimit s!"WAL ledger: {error.display}"
  | .unreachableState _ => .corruption s!"WAL ledger: {error.display}"
  | _ => .internal s!"invalid WAL ledger edit: {error.display}"

def ledgerCorruption (detail : String) : MidgeError := .corruption s!"WAL ledger LEDGER {detail}"

/-- The bytes of a frame. -/
def frameBytes (payload : List Byte) : List Byte :=
  toLe 4 payload.length ++ toLe 4 (crc32c (toLe 4 payload.length ++ payload)) ++ payload

/-- The payload and the length of the frame that the bytes start with, when it is
    complete and its checksum matches. -/
def checkedFrame (bytes : List Byte) : Option (List Byte × ℕ) :=
  let length := bytes.take 4
  let checksum := ofLe ((bytes.drop 4).take 4)
  let stop := ofLe length + frameHeaderLen
  let payload := (bytes.take stop).drop frameHeaderLen
  if frameHeaderLen ≤ bytes.length ∧ stop ≤ bytes.length ∧
      crc32c (length ++ payload) = checksum then some (payload, stop)
  else none

namespace JsonCodec

variable (json : JsonCodec)

def encodeFrame (image : FrameImage) : MidgeResult (List Byte) := do
  let payload := json.toVec image
  ensure (payload.length < 256 ^ 4) (.internal "a WAL ledger frame exceeds 4 GiB")
  return frameBytes payload

/-- Decode a payload; the image of a ledger is validated. -/
def decodeFrame (payload : List Byte) : Except String Frame := do
  match ← json.fromSlice payload with
  | .snapshot image => return .snapshot (← image.tryFrom.mapError LedgerError.display)
  | .edit edit => return .edit edit

/-- Whether a complete, valid, decodable frame starts anywhere in the bytes. -/
def holdsValidFrame (bytes : List Byte) : Bool :=
  (List.range bytes.length).any fun start =>
    (checkedFrame (bytes.drop start)).any fun frame => (json.decodeFrame frame.1).isOk

/-- What the bytes at one offset of the file hold. -/
inductive NextFrame
  | ends
  | torn
  | frame (frame : Frame) (stop : ℕ)

def nextFrame (bytes : List Byte) (start : ℕ) : MidgeResult NextFrame :=
  let rest := bytes.drop start
  if rest = [] then .ok .ends
  else
    match checkedFrame rest with
    | none =>
      if json.holdsValidFrame rest.tail then
        .error (ledgerCorruption s!"has a damaged frame at byte {start} before a valid frame")
      else .ok .torn
    | some (payload, len) => do
      let frame ← (json.decodeFrame payload).mapError fun error =>
        ledgerCorruption s!"frame at byte {start} does not decode: {error}"
      return .frame frame (start + len)

/-- How the file ended when it was loaded. -/
inductive LedgerTail
  | clean
  | torn
  deriving DecidableEq

/-- Apply the edits of the file from `start` on. Every frame takes some bytes, so that
    their number is enough fuel. -/
def parseEdits (bytes : List Byte) : ℕ → WalLedger → ℕ → MidgeResult (WalLedger × LedgerTail)
  | 0, _, start => .error (ledgerCorruption s!"does not end by byte {start}")
  | fuel + 1, ledger, start => do
    match ← json.nextFrame bytes start with
    | .ends => return (ledger, .clean)
    | .torn => return (ledger, .torn)
    | .frame (.edit edit) stop =>
      match WalLedger.apply edit ledger with
      | .ok _ ledger => parseEdits bytes fuel ledger stop
      | .error error _ =>
        .error (ledgerCorruption s!"edit at byte {start} does not apply: {error.display}")
    | .frame (.snapshot _) _ =>
      .error (ledgerCorruption s!"holds a second snapshot at byte {start}")

/-- Read the ledger from the bytes of the file. -/
def parse (bytes : List Byte) : MidgeResult (WalLedger × LedgerTail) := do
  ensure (ledgerHeaderLen ≤ bytes.length) (ledgerCorruption "is shorter than its header")
  ensure (bytes.take 8 = ledgerMagic) (ledgerCorruption "does not start with the ledger magic")
  let version := ofLe ((bytes.take ledgerHeaderLen).drop 8)
  ensure (version = ledgerVersion) (.compatibilityError
    s!"WAL ledger LEDGER has format version {version}; this build reads {ledgerVersion}")
  match ← json.nextFrame bytes ledgerHeaderLen with
  | .frame (.snapshot ledger) stop => json.parseEdits bytes (bytes.length + 1) ledger stop
  | .frame (.edit _) _ => .error (ledgerCorruption "opens with an edit instead of a snapshot")
  | .ends | .torn => .error (ledgerCorruption "has no complete snapshot")

end JsonCodec

/-! ## The disk -/

/-- What is known of the bytes of the file. -/
structure Disk where
  /-- The bytes that have been synced. -/
  file : List Byte
  /-- A frame after them, that has been written and not synced. -/
  pending : List Byte := []
  /-- A file renamed over this one, when the directory has not been synced. -/
  renamed : Option (List Byte) := none
  deriving DecidableEq

/-- The bytes may be those of the file after a crash. -/
def Disk.Survives (disk : Disk) (bytes : List Byte) : Prop :=
  (∃ left, Torn disk.pending left ∧ bytes = disk.file ++ left) ∨ disk.renamed = some bytes

/-- A call of the file system that fails, and whether it has taken effect. -/
structure Fault where
  error : MidgeError
  effective : Bool

/-- How the calls of the file system end that writing a frame makes: `none` when the
    call succeeds. -/
structure WriteFaults where
  opens : Option MidgeError := none
  len : Option MidgeError := none
  reads : Option MidgeError := none
  write : Option MidgeError := none
  sync : Option MidgeError := none

/-! ## The store -/

/-- The open journal of one WAL directory. -/
structure LedgerStore where
  /-- The state the file holds. -/
  ledger : WalLedger
  /-- The length of the file. -/
  len : ℕ
  /-- The bytes that this store may extend, unless a fence serializes all access. -/
  image : Option (List Byte)
  /-- Edits appended after the snapshot. -/
  edits : ℕ
  /-- A write failed, so that the file may not be as described. -/
  failed : Bool
  /-- Another writer has changed the file. -/
  fenced : Bool

/-- What the store knows after a write has failed. -/
def LedgerStore.afterFailure (store : LedgerStore) : MidgeError → LedgerStore
  | .fenced _ => { store with fenced := true }
  | _ => { store with failed := true }

/-- A store and its disk. -/
structure StoreWorld where
  store : LedgerStore
  disk : Disk

def fencedError : MidgeError := .fenced "WAL ledger changed after this writer opened it"

/-- The bytes that a read of the file sees while no write is under way. -/
def Disk.content (disk : Disk) : List Byte := disk.renamed.getD (disk.file ++ disk.pending)

namespace StoreWorld

/-- Replace the file: write another one, sync it, rename it, and sync the directory. -/
def publish (fault : Option Fault) (image : List Byte) : Update MidgeError StoreWorld Unit :=
  match fault with
  | none => modify fun world => { world with disk := ⟨image, [], none⟩ }
  | some fault => do
    if fault.effective then
      modify fun world => { world with disk := { world.disk with renamed := some image } }
    throw fault.error

variable (json : JsonCodec)

/-- Replace the file with a snapshot of the ledger. -/
def compact (fault : Option Fault) : Update MidgeError StoreWorld Unit := do
  let world ← get
  check (ensure (world.store.fenced = false) fencedError)
  let frame ← check (json.encodeFrame (.snapshot world.store.ledger.image))
  let image := ledgerHeader ++ frame
  modify fun world => { world with store := { world.store with failed := true } }
  publish fault image
  modify fun world => { world with store := { world.store with
    len := image.length
    image := world.store.image.map fun _ => image
    edits := 0
    failed := false } }

/-- Make the file as the store has it, after a failed write. -/
def heal (fault : Option Fault) : Update MidgeError StoreWorld Unit := do
  let world ← get
  if world.store.failed then compact json fault else pure ()

/-- Append a frame to the file, and sync it. -/
def writeFrame (faults : WriteFaults) (frame : List Byte) : Update MidgeError StoreWorld Unit := do
  let world ← get
  check (faultCheck faults.opens)
  check (faultCheck faults.len)
  let len := world.disk.content.length
  check (if world.store.image.isSome then faultCheck faults.reads else .ok ())
  check (ensure (∀ image ∈ world.store.image, world.disk.content = image) fencedError)
  check (ensure (len = world.store.len)
    (ledgerCorruption s!"holds {len} bytes where {world.store.len} were written"))
  modify fun world => { world with disk := { world.disk with pending := frame } }
  check (faultCheck faults.write)
  check (faultCheck faults.sync)
  modify fun world => { world with disk := ⟨world.disk.file ++ frame, [], none⟩ }

/-- Append one edit. -/
def append (healing : Option Fault) (faults : WriteFaults) (compaction : Option Fault)
    (edit : LedgerEdit) : Update MidgeError StoreWorld Unit := do
  let world ← get
  check (ensure (world.store.fenced = false) fencedError)
  heal json healing
  let world ← get
  let next ← check <|
    match WalLedger.apply edit world.store.ledger with
    | .ok _ next => .ok next
    | .error error _ => .error error.toMidge
  let frame ← check (json.encodeFrame (.edit edit))
  match ← attempt (writeFrame faults frame) with
  | .error error =>
    modify fun world => { world with store := world.store.afterFailure error }
    throw error
  | .ok _ =>
    modify fun world => { world with store := { world.store with
      ledger := next
      image := world.store.image.map (· ++ frame)
      len := world.store.len + frame.length
      edits := world.store.edits + 1 } }
    let world ← get
    if compactAfterEdits ≤ world.store.edits then
      -- A failed compaction does not fail the append.
      let _ ← (attempt (compact json compaction) : Update MidgeError StoreWorld _)
      pure ()
    else pure ()

/-- A store for a new database, before its first publication. -/
def unpublished (fencedByWriter : Bool) (ledger : WalLedger) (disk : Disk) : StoreWorld where
  store := {
    ledger
    len := 0
    image := if fencedByWriter then none else some []
    edits := 0
    failed := true
    fenced := false }
  disk

/-- Open the file: publish the ledger that it holds as a new snapshot. -/
def openStore (fencedByWriter : Bool) (fault : Option Fault) (bytes : List Byte) (disk : Disk) :
    MidgeResult StoreWorld := do
  let (ledger, _) ← json.parse bytes
  match compact json fault (unpublished fencedByWriter ledger disk) with
  | .ok _ world => return world
  | .error error _ => .error error

end StoreWorld

end Midge
