import Midge.Types

/-!
# The documents in the cloud

The lease document says who may write, and until when.

A metadata generation lists the immutable objects that hold the control metadata. Generations
are numbered, and each one follows its predecessor (`validateSuccessor`).
-/

namespace Midge

/-- The errors of lease operations. -/
inductive LeaseError
  | acquisitionFailed (message : String)
  | renewalFailed (message : String)
  | ioError (message : String)
  | indeterminate (message : String)
  | epochExhausted
  | alreadyAcquired (message : String)
  | internal (message : String)
  | timeout (message : String)
  deriving DecidableEq, Repr

/-- The text of an error. -/
def LeaseError.text : LeaseError → String
  | .acquisitionFailed message => "lease acquisition failed: " ++ message
  | .renewalFailed message => "lease renewal failed: " ++ message
  | .ioError message => "lease I/O error: " ++ message
  | .indeterminate message => "lease state is indeterminate: " ++ message
  | .epochExhausted => "lease fencing epoch is exhausted"
  | .alreadyAcquired message => "lease already acquired: " ++ message
  | .internal message => "lease internal error: " ++ message
  | .timeout message => "lease operation timed out: " ++ message

/-- A millisecond, in the nanoseconds in which times are given. -/
def millisecond : ℕ := 1000000

def second : ℕ := 1000 * millisecond

/-- What the lease must still be valid for before a write. -/
def renewalWriteDeadlineMargin : ℕ := 11 * second

/-- One immutable metadata body. -/
structure CloudMetadataObject where
  fileName : String
  objectKey : String
  len : ℕ
  crc32c : ℕ
  deriving DecidableEq, Repr

/-- The metadata bodies of one committed generation. -/
structure CloudMetadataGeneration where
  /-- The ordinal of the publication. -/
  id : ℕ
  /-- The horizon of the manifest journal. -/
  manifestHorizon : ℕ
  objects : List CloudMetadataObject
  deriving DecidableEq, Repr

namespace SharedGenerationId

/-- The ordinal of no publication. -/
def none : ℕ := 0

/-- The ordinal of the first publication. -/
def first : ℕ := 1

/-- The next ordinal, unless they are exhausted. -/
def checkedNext (id : ℕ) : Option ℕ := if id < usizeMax then some (id + 1) else Option.none

end SharedGenerationId

namespace CloudMetadataGeneration

/-- The ordinal that follows the predecessor. -/
def nextId (previous : Option CloudMetadataGeneration) : Option ℕ :=
  previous.elim (some SharedGenerationId.first) fun old => SharedGenerationId.checkedNext old.id

/-- The generation follows its predecessor. -/
def validateSuccessor (generation : CloudMetadataGeneration)
    (previous : Option CloudMetadataGeneration) : Except LeaseError Unit :=
  if previous = some generation then .ok ()
  else do
    let expected ← (nextId previous).elim
      (.error (.internal "shared metadata generation exhausted")) .ok
    if generation.id ≠ expected ∨
        previous.any fun old => decide (generation.manifestHorizon < old.manifestHorizon) then
      .error (.renewalFailed ("shared metadata publication must follow its exact predecessor " ++
        "without regressing the manifest horizon"))
    else .ok ()

/-- A generation that passes has the next ordinal, and does not go back in the journal. -/
theorem validateSuccessor_eq_ok {generation : CloudMetadataGeneration}
    {previous : Option CloudMetadataGeneration} (hne : previous ≠ some generation) :
    generation.validateSuccessor previous = .ok () ↔
      nextId previous = some generation.id ∧
        ∀ old, previous = some old → old.manifestHorizon ≤ generation.manifestHorizon := by
  rw [validateSuccessor, if_neg hne]
  cases hnext : nextId previous with
  | none => simp [bind, Except.bind]
  | some expected =>
    simp only [bind, Except.bind, Option.elim_some]
    split_ifs with hbad
    · refine iff_of_false (by simp) ?_
      rintro ⟨hid, hhorizon⟩
      rcases hbad with hbad | hbad
      · exact hbad (Option.some.inj hid).symm
      · obtain ⟨old, hold, hlt⟩ := Option.any_eq_true _ _ |>.1 hbad
        exact absurd (hhorizon old hold) (not_le.2 (of_decide_eq_true hlt))
    · push Not at hbad
      refine iff_of_true rfl ⟨by rw [hbad.1], fun old hold => ?_⟩
      rw [hold, Option.any_some] at hbad
      exact not_lt.1 fun hlt => hbad.2 (decide_eq_true hlt)

end CloudMetadataGeneration

/-! ## Lease documents -/

/-- The versions of the lease document. -/
inductive LeaseDocumentVersion
  | legacy
  | v3
  | v4
  deriving DecidableEq, Repr

/-- The lease. Its times are those of the holder's wall clock. -/
structure LeaseDocument where
  version : LeaseDocumentVersion
  epoch : Option ℕ
  holderId : String
  ownerToken : Option String
  acquiredAt : ℤ
  expiresAt : ℤ
  committedMetadata : Option CloudMetadataGeneration
  deriving DecidableEq, Repr

/-- Whether the metadata authority has been set up. -/
inductive AuthoritySentinelState
  | missing
  | pending
  | active
  deriving DecidableEq, Repr

def legacyMetadataMigrationError : LeaseError :=
  .indeterminate "legacy cloud lease layout is unsupported; rebuild or re-import into FORMAT 9"

/-! ## Well-formed generations -/

/-- The name of the links of a manifest chain. -/
def chainFileName : String := "manifest-chain"

def maxChainObjects : ℕ := 16

def maxChainBytes : ℕ := 64 * 1024 * 1024

/-- The metadata files that are mirrored to the cloud. -/
def cloudMirrored : List String :=
  ["FORMAT", "manifest.snapshot.json", "manifest.journal", "intent_log.json"]

def metadataGenerationsPrefix : String := "metadata/generations/"

/-- A hexadecimal digit, in lower case. -/
def hexDigit? (c : Char) : Option Char :=
  if c.isDigit || (decide ('a' ≤ c) && decide (c ≤ 'f')) then some c
  else if decide ('A' ≤ c) && decide (c ≤ 'F') then some c.toLower
  else none

/-- Where the hyphens of a UUID stand. -/
def uuidHyphens : List ℕ := [8, 13, 18, 23]

/-- Parse the 36 characters of a UUID with its hyphens. -/
def parseHyphenated (text : List Char) : Option (List Char) :=
  if text.length = 36 then
    text.zipIdx.mapM fun c =>
      if c.2 ∈ uuidHyphens then (if c.1 = '-' then some '-' else none) else hexDigit? c.1
  else none

/-- Put the hyphens between 32 digits. -/
def hyphenate (digits : List Char) : List Char :=
  digits.take 8 ++ '-' :: (digits.drop 8).take 4 ++ '-' :: (digits.drop 12).take 4 ++
    '-' :: (digits.drop 16).take 4 ++ '-' :: digits.drop 20

/-- Parse a UUID in any of its forms: with or without hyphens, in braces, or as a URN. The
    result is its canonical text. -/
def parseUuid (text : String) : Option String :=
  let chars := text.toList
  let canonical :=
    if chars.length = 32 then (chars.mapM hexDigit?).map hyphenate
    else if chars.length = 38 ∧ chars.head? = some '\x7b' ∧ chars.getLast? = some '\x7d' then
      parseHyphenated ((chars.drop 1).take 36)
    else if "urn:uuid:".toList.isPrefixOf chars then parseHyphenated (chars.drop 9)
    else parseHyphenated chars
  canonical.map String.ofList

/-- The text after a known beginning. -/
def stripPrefix? (start text : String) : Option String :=
  if start.toList.isPrefixOf text.toList then some (String.ofList (text.toList.drop start.length))
  else none

/-- The key of a link of the manifest chain names its ordinal and an operation. -/
def validateChainKey (key : String) (ordinal : ℕ) : Except LeaseError Unit :=
  match stripPrefix? ("manifest/" ++ padded ordinal ++ "/") key with
  | none => .error (.indeterminate "Corruption: invalid cloud manifest version key")
  | some operation =>
    if parseUuid operation = some operation then .ok ()
    else .error (.indeterminate "Corruption: invalid cloud manifest operation identity")

/-- Check the links of a manifest chain, of which the first `index` have been checked, and
    take `total` bytes. -/
def validateChainObjects (id : ℕ) : ℕ → ℕ → List CloudMetadataObject → Except LeaseError ℕ
  | _, total, [] => .ok total
  | index, total, object :: objects =>
    if id < index then .error (.indeterminate "cloud manifest ordinal underflow")
    else if object.fileName ≠ chainFileName ∨ object.len = 0 then
      .error (.indeterminate "invalid cloud manifest chain reference")
    else do
      validateChainKey object.objectKey (id - index)
      if usizeMax < total + object.len then
        .error (.indeterminate "cloud manifest length overflow")
      else validateChainObjects id (index + 1) (total + object.len) objects

/-- Check the objects of a generation that is no chain. -/
def validateFileObjects : List String → List CloudMetadataObject → Except LeaseError Unit
  | _, [] => .ok ()
  | seen, object :: objects =>
    if object.fileName ∉ cloudMirrored ∨ object.fileName ∈ seen then
      .error (.internal ("cloud metadata generation has an invalid or duplicate filename '" ++
        object.fileName ++ "'"))
    else
      match (stripPrefix? metadataGenerationsPrefix object.objectKey).map fun relative =>
          (relative.toList.takeWhile (· ≠ '/'), relative.toList.dropWhile (· ≠ '/')) with
      | some (generationId, '/' :: fileName) =>
        let generationId := String.ofList generationId
        if parseUuid generationId = none then
          .error (.internal ("cloud metadata '" ++ object.fileName ++
            "' has an invalid generation ID"))
        else if parseUuid generationId ≠ some generationId ∨
            String.ofList fileName ≠ object.fileName then
          .error (.internal ("cloud metadata '" ++ object.fileName ++
            "' has a noncanonical immutable object key"))
        else validateFileObjects (object.fileName :: seen) objects
      | _ => .error (.internal ("cloud metadata '" ++ object.fileName ++
          "' has an invalid immutable object key"))

/-- The generation is well formed. -/
def validateMetadataGeneration (generation : CloudMetadataGeneration) : Except LeaseError Unit :=
  if generation.id = SharedGenerationId.none then
    .error (.internal "committed shared generation has zero ordinal")
  else if generation.objects.head?.any fun object => object.fileName == chainFileName then
    if maxChainObjects < generation.objects.length then
      .error (.indeterminate "cloud manifest chain exceeds object bound")
    else do
      let total ← validateChainObjects generation.id 0 0 generation.objects
      if maxChainBytes < total then
        .error (.indeterminate "cloud manifest chain exceeds read bound")
      else .ok ()
  else if generation.objects = [] ∨ cloudMirrored.length < generation.objects.length then
    .error (.internal "cloud metadata generation has an invalid object count")
  else do
    validateFileObjects [] generation.objects
    if generation.objects.any (fun object => object.fileName == "FORMAT") &&
        generation.objects.any (fun object => object.fileName == "manifest.snapshot.json") then
      .ok ()
    else .error (.internal "cloud metadata generation lacks FORMAT or manifest snapshot")

end Midge
