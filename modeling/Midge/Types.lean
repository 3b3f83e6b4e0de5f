import Mathlib
import Midge.Lib.Bytes
import Midge.Lib.Exec

/-!
# Shared types

The data types that every layer of the engine exchanges: byte-string keys in
lexicographic order, versions of a key, half-open range tombstones, the state
of a key in a source, the manifest entry of an SST, and the errors. Sequences
are `u64`s that the code only compares, so they are natural numbers here; where
it adds to a size the addition saturates (`satAdd`).
-/

namespace Midge

/-- A byte. -/
abbrev Byte := Fin 256

/-- The byte of a number. -/
def byte (n : ℕ) : Byte := lowByte n

/-- A user key. -/
def Key := List Byte

/-- Keys are ordered lexicographically. -/
instance : LinearOrder Key := inferInstanceAs (LinearOrder (List Byte))

instance : Repr Key := inferInstanceAs (Repr (List Byte))

instance : Inhabited Key := ⟨[]⟩

/-- A stored value. -/
abbrev Value := List Byte

/-- The main error type. -/
inductive MidgeError
  | io (message : String)
  | notFound
  | invalidArgument (message : String)
  | corruption (message : String)
  | notSupported (message : String)
  | internal (message : String)
  | invalidPath
  | noSpace (message : String)
  | recoveryFailed (message : String)
  | compatibilityError (message : String)
  | writeStall (message : String)
  | memoryModeViolation (message : String)
  | fenced (message : String)
  | leaseHeld (message : String)
  | leaseUnavailable (message : String)
  | leaseIndeterminate (message : String)
  | leaseEpochExhausted
  | writeConflict (message : String)
  | aborted (message : String)
  | busy (message : String)
  | timeout (message : String)
  | outcomeUnknown (message : String)
  | resourceLimit (message : String)
  | unflushedDataPresent (cfId bytes : ℕ)
  deriving DecidableEq, Repr

/-- The text of an error. -/
def MidgeError.display : MidgeError → String
  | .io message => s!"IO error: {message}"
  | .notFound => "Not found"
  | .invalidArgument message => s!"Invalid argument: {message}"
  | .corruption message => s!"Corruption: {message}"
  | .notSupported message => s!"Not supported: {message}"
  | .internal message => s!"Internal error: {message}"
  | .invalidPath => "Invalid path"
  | .noSpace message => s!"No space left on device: {message}"
  | .recoveryFailed message => s!"Recovery failed: {message}"
  | .compatibilityError message => s!"Compatibility error: {message}"
  | .writeStall message => s!"Write stall: {message}"
  | .memoryModeViolation message => s!"Memory mode violation: {message}"
  | .fenced message => s!"Fenced: writer epoch is stale: {message}"
  | .leaseHeld message => s!"Writer lease held: {message}"
  | .leaseUnavailable message => s!"Writer lease unavailable: {message}"
  | .leaseIndeterminate message => s!"Writer lease state is indeterminate: {message}"
  | .leaseEpochExhausted => "Writer lease fencing epoch is exhausted"
  | .writeConflict message => s!"Write conflict: {message}"
  | .aborted message => s!"Aborted: {message}"
  | .busy message => s!"Busy: {message}"
  | .timeout message => s!"Timeout: {message}"
  | .outcomeUnknown message => s!"Write outcome unknown: {message}"
  | .resourceLimit message => s!"Resource limit: {message}"
  | .unflushedDataPresent cfId bytes =>
    s!"Unflushed committed data: column family {cfId} holds {bytes} byte(s) in its active " ++
      "memtable"

/-- A fallible computation. -/
abbrev MidgeResult := Except MidgeError

/-- A fallible computation that also calls out to its environment. -/
abbrev MidgeExec := Exec MidgeError

/-! ## Machine sizes -/

/-- The largest `usize` and `u64`. -/
def usizeMax : ℕ := 2 ^ 64 - 1

/-- `usize::saturating_add`. -/
def satAdd (a b : ℕ) : ℕ := min (a + b) usizeMax

/-- `usize::saturating_mul`. -/
def satMul (a b : ℕ) : ℕ := min (a * b) usizeMax

/-! ## Versions and tombstones -/

/-- The logical operation of a versioned key. -/
inductive EntryType
  | put
  | insert
  | delete
  | merge
  deriving DecidableEq, Repr

/-- One version of a key, as the raw cursor of an SST yields it. -/
structure RawSstVersion where
  key : Key
  seq : ℕ
  isTombstone : Bool
  value : Option Value
  expiration : Option ℕ
  deriving DecidableEq, Repr

/-- A range tombstone, deleting the keys of `[start, stop)` up to `seq`. -/
structure RangeTombstone where
  start : Key
  stop : Key
  seq : ℕ
  deriving DecidableEq, Repr

namespace RangeTombstone

/-- Whether the tombstone is visible at `snapshotSeq`; the largest sequence
    reads the latest state. -/
def visibleAt (t : RangeTombstone) (snapshotSeq : ℕ) : Bool :=
  snapshotSeq == usizeMax || decide (t.seq ≤ snapshotSeq)

/-- Whether the key lies in the half-open range. -/
def Covers (t : RangeTombstone) (key : Key) : Prop := t.start ≤ key ∧ key < t.stop

instance (t : RangeTombstone) (key : Key) : Decidable (t.Covers key) :=
  inferInstanceAs (Decidable (_ ∧ _))

end RangeTombstone

/-- The state of a key in a source, as of a snapshot. -/
inductive KeyState
  | absent
  | tombstone (seq : ℕ)
  | value (value : Value) (seq : ℕ) (expiration : Option ℕ) (opType : EntryType)
  deriving DecidableEq, Repr

/-- The persisted content at one sequence, whatever its source. Put and insert
    have the same identity; the expiration is part of it. -/
structure VersionContent where
  isTombstone : Bool
  value : Option Value
  expiration : Option ℕ
  deriving DecidableEq, Repr

/-- The content of a version. -/
def RawSstVersion.content (v : RawSstVersion) : VersionContent :=
  ⟨v.isTombstone, v.value, v.expiration⟩

/-- The content of a present state. -/
def VersionContent.fromState : KeyState → Option VersionContent
  | .absent => none
  | .tombstone _ => some ⟨true, none, none⟩
  | .value v _ expiration _ => some ⟨false, some v, expiration⟩

/-- Identical copies are valid; differing content at one sequence is corrupt. -/
def resolveSameSequence (existing candidate : VersionContent) : Except Unit Unit :=
  if existing = candidate then .ok () else .error ()

/-! ## The contents of an SST -/

/-- What an SST holds: its versions and its range tombstones. -/
structure SstContents where
  versions : List RawSstVersion
  tombstones : List RangeTombstone
  deriving DecidableEq, Repr

namespace SstContents

/-- Nothing. -/
def empty : SstContents := ⟨[], []⟩

instance : Inhabited SstContents := ⟨empty⟩

/-- The contents of several sources together. -/
def append (a b : SstContents) : SstContents :=
  ⟨a.versions ++ b.versions, a.tombstones ++ b.tombstones⟩

instance : Append SstContents := ⟨append⟩

@[simp]
theorem versions_append (a b : SstContents) : (a ++ b).versions = a.versions ++ b.versions := rfl

@[simp]
theorem tombstones_append (a b : SstContents) :
    (a ++ b).tombstones = a.tombstones ++ b.tombstones := rfl

/-- Some version of the key is there, or some range tombstone covers it. -/
def Holds (d : SstContents) (k : Key) : Prop :=
  (∃ v ∈ d.versions, v.key = k) ∨ ∃ t ∈ d.tombstones, t.Covers k

/-- A version of the key, or a range tombstone that covers it, is there at the
    sequence. -/
def HasSeqAt (d : SstContents) (k : Key) (seq : ℕ) : Prop :=
  (∃ v ∈ d.versions, v.key = k ∧ v.seq = seq) ∨ ∃ t ∈ d.tombstones, t.Covers k ∧ t.seq = seq

theorem holds_iff {d : SstContents} {k : Key} : d.Holds k ↔ ∃ seq, d.HasSeqAt k seq := by
  constructor
  · rintro (⟨v, hv, hk⟩ | ⟨t, ht, hk⟩)
    exacts [⟨v.seq, .inl ⟨v, hv, hk, rfl⟩⟩, ⟨t.seq, .inr ⟨t, ht, hk, rfl⟩⟩]
  · rintro ⟨seq, ⟨v, hv, hk, -⟩ | ⟨t, ht, hk, -⟩⟩
    exacts [.inl ⟨v, hv, hk⟩, .inr ⟨t, ht, hk⟩]

/-- No range tombstone is empty. -/
def RangesProper (d : SstContents) : Prop := ∀ t ∈ d.tombstones, t.start < t.stop

/-- The contents of a list of sources together. -/
def concat (l : List SstContents) : SstContents :=
  ⟨l.flatMap versions, l.flatMap tombstones⟩

end SstContents

/-! ## Manifest entries -/

/-- The manifest entry of an SST. -/
structure FileMeta where
  name : String
  level : ℕ
  sizeBytes : ℕ := 0
  contentCrc32c : Option ℕ := none
  cfId : ℕ := 0
  sstSeq : ℕ := 0
  smallestKey : Option Key := none
  largestKey : Option Key := none
  smallestSeq : Option ℕ := none
  largestSeq : Option ℕ := none
  /-- Whether the key bounds include every point key and range endpoint. -/
  keyBoundsComplete : Bool := false
  earliestExpirationMillis : Option ℕ := none
  sublevel : ℕ := 0
  readCount : ℕ := 0
  deriving DecidableEq, Repr

/-- The length of the prefix satisfying `p`: what a binary search for the
    partition point of a list partitioned by `p` finds. -/
def partitionPoint {α : Type*} (p : α → Bool) (l : List α) : ℕ := (l.takeWhile p).length

theorem drop_partitionPoint {α : Type*} (p : α → Bool) (l : List α) :
    l.drop (partitionPoint p l) = l.dropWhile p := by
  have h := @List.drop_left _ (l.takeWhile p) (l.dropWhile p)
  rwa [List.takeWhile_append_dropWhile] at h

theorem take_partitionPoint {α : Type*} (p : α → Bool) (l : List α) :
    l.take (partitionPoint p l) = l.takeWhile p := by
  have h := @List.take_left _ (l.takeWhile p) (l.dropWhile p)
  rwa [List.takeWhile_append_dropWhile] at h

theorem takeWhile_eq_filter {α : Type*} {q : α → Bool} {l : List α}
    (h : l.Pairwise fun a b => q b → q a) : l.takeWhile q = l.filter q := by
  induction l with
  | nil => rfl
  | cons a l ih =>
    rw [List.pairwise_cons] at h
    by_cases ha : q a
    · rw [List.takeWhile_cons_of_pos ha, List.filter_cons_of_pos ha, ih h.2]
    · rw [List.takeWhile_cons_of_neg ha, List.filter_cons_of_neg ha, eq_comm,
        List.filter_eq_nil_iff]
      exact fun b hb hqb => ha (h.1 b hb hqb)

theorem not_of_mem_dropWhile {α : Type*} {q : α → Bool} {l : List α} {a : α}
    (h : l.Pairwise fun a b => q b → q a) (ha : a ∈ l.dropWhile q) : ¬ q a := by
  induction l with
  | nil => simp at ha
  | cons b l ih =>
    rw [List.pairwise_cons] at h
    by_cases hb : q b
    · rw [List.dropWhile_cons_of_pos hb] at ha
      exact ih h.2 ha
    · rw [List.dropWhile_cons_of_neg hb] at ha
      rcases List.mem_cons.1 ha with rfl | ha
      exacts [hb, fun hqa => hb (h.1 a ha hqa)]

/-- A number with leading zeros, as the names of objects have it. -/
def padded (n : ℕ) : String := String.ofList ((toString n).toList.leftpad 20 '0')

/-- `n` in decimal, padded with zeros to `width` digits. -/
def zeroPadded (width n : ℕ) : String :=
  let digits := toString n
  String.ofList (List.replicate (width - digits.length) '0') ++ digits

/-- `u64::checked_add`. -/
def checkedAdd (a b : ℕ) : Option ℕ := if a + b ≤ usizeMax then some (a + b) else none

/-- Let a call end as the fault has it. -/
def faultCheck (fault : Option MidgeError) : Except MidgeError Unit :=
  fault.elim (.ok ()) .error

end Midge
