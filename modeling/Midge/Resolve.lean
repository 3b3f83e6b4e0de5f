import Midge.Types

/-!
# Resolving a key

What a set of SSTs says about a key at a sequence, as an abstract reader sees
it: the version of the key with the highest sequence up to it, unless a range
tombstone covering the key, also up to it, is at least as new (`resolve`). It
is the meaning that compaction has to preserve.

The *hull* of a set of SSTs is the closed key interval between its smallest and
its largest key, tombstone bounds included.
-/

namespace Midge

open List

/-- What a read finds: a value, with its sequence and expiration. -/
structure Resolved where
  value : Option Value
  seq : ℕ
  expiration : Option ℕ
  deriving DecidableEq, Repr

variable {v : RawSstVersion}

namespace SstContents

variable (d : SstContents)

/-- The versions of `k` up to the sequence `q`. -/
def versionsAt (k : Key) (q : ℕ) : List RawSstVersion :=
  d.versions.filter fun v => v.key = k ∧ v.seq ≤ q

/-- The version of `k` with the highest sequence up to `q`. -/
def newestAt (k : Key) (q : ℕ) : Option RawSstVersion :=
  (d.versionsAt k q).argmax RawSstVersion.seq

/-- A range tombstone up to `q` hides the version of `k` at `seq`. -/
def Hides (k : Key) (q seq : ℕ) : Prop :=
  ∃ t ∈ d.tombstones, t.Covers k ∧ t.seq ≤ q ∧ seq ≤ t.seq

instance (k : Key) (q seq : ℕ) : Decidable (d.Hides k q seq) :=
  inferInstanceAs (Decidable (∃ t ∈ d.tombstones, _))

/-- What a read of `k` at `q` finds, if anything. -/
def resolve (k : Key) (q : ℕ) : Option Resolved :=
  match d.newestAt k q with
  | none => none
  | some v =>
    if v.isTombstone ∨ d.Hides k q v.seq then none else some ⟨v.value, v.seq, v.expiration⟩

/-- The sequences of all the mutations. -/
def sequences : List ℕ := d.versions.map RawSstVersion.seq ++ d.tombstones.map RangeTombstone.seq

/-- The keys of all the versions, and the bounds of all the range tombstones. -/
def bounds : List Key :=
  d.versions.map RawSstVersion.key ++ d.tombstones.flatMap fun t => [t.start, t.stop]

/-- The key lies between two of the bounds. -/
def InHull (k : Key) : Prop := ∃ a ∈ d.bounds, ∃ b ∈ d.bounds, a ≤ k ∧ k ≤ b

/-- The entries of `u` in the hull of `d` are newer than all those of `d`. -/
structure NewerInHull (d u : SstContents) : Prop where
  versions : ∀ v ∈ u.versions, d.InHull v.key → ∀ s ∈ d.sequences, s < v.seq
  tombstones : ∀ t ∈ u.tombstones, (∃ k, d.InHull k ∧ t.Covers k) → ∀ s ∈ d.sequences, s < t.seq

variable {d} {k : Key} {q : ℕ}

theorem mem_versionsAt : v ∈ d.versionsAt k q ↔ v ∈ d.versions ∧ v.key = k ∧ v.seq ≤ q := by
  simp [versionsAt]

theorem versionsAt_append (a b : SstContents) :
    (a ++ b).versionsAt k q = a.versionsAt k q ++ b.versionsAt k q := by
  simp [versionsAt]

theorem inHull_key (hv : v ∈ d.versions) : d.InHull v.key := by
  have : v.key ∈ d.bounds := mem_append_left _ (mem_map_of_mem hv)
  exact ⟨_, this, _, this, le_rfl, le_rfl⟩

theorem inHull_covers {t : RangeTombstone} (ht : t ∈ d.tombstones) (hk : t.Covers k) :
    d.InHull k := by
  have hb : ∀ b ∈ [t.start, t.stop], b ∈ d.bounds := fun b hb =>
    mem_append_right _ (mem_flatMap.2 ⟨t, ht, hb⟩)
  exact ⟨t.start, hb _ (by simp), t.stop, hb _ (by simp), hk.1, hk.2.le⟩

theorem seq_mem_of_version (hv : v ∈ d.versions) : v.seq ∈ d.sequences :=
  mem_append_left _ (mem_map_of_mem hv)

theorem seq_mem_of_tombstone {t : RangeTombstone} (ht : t ∈ d.tombstones) : t.seq ∈ d.sequences :=
  mem_append_right _ (mem_map_of_mem ht)

end SstContents

/-! ## Greatest elements of lists -/

section Argmax

variable {α : Type*} {f : α → ℕ}

/-- The greatest element of a concatenation depends on the first list only
    through its own greatest element. -/
theorem argmax_append_congr {l₁ l₂ : List α} (h : l₁.argmax f = l₂.argmax f) (l : List α) :
    (l₁ ++ l).argmax f = (l₂ ++ l).argmax f := by
  induction l using reverseRecOn with
  | nil => simpa using h
  | append_singleton l a ih =>
    rw [← append_assoc, ← append_assoc, argmax_concat, argmax_concat, ih]

theorem argmax_append_of_lt {l₁ l₂ : List α} (hne : l₂ ≠ []) (h : ∀ a ∈ l₁, ∀ b ∈ l₂, f a < f b) :
    (l₁ ++ l₂).argmax f = l₂.argmax f := by
  cases l₂ with
  | nil => exact absurd rfl hne
  | cons b l₂ =>
    have hb : (l₁ ++ [b]).argmax f = [b].argmax f := by
      rw [argmax_concat, argmax_singleton]
      cases hl : l₁.argmax f with
      | none => rfl
      | some a => exact if_pos (h a (argmax_mem hl) b mem_cons_self)
    rw [← singleton_append, ← append_assoc]
    exact argmax_append_congr hb l₂

theorem argmax_eq_some_of_unique {l : List α} {a : α} (ha : a ∈ l) (hmax : ∀ b ∈ l, f b ≤ f a)
    (huniq : ∀ b ∈ l, f b = f a → b = a) : l.argmax f = some a := by
  cases hl : l.argmax f with
  | none => simp [argmax_eq_none.1 hl] at ha
  | some b =>
    have hb := argmax_mem hl
    rw [huniq b hb (le_antisymm (hmax b hb) (le_of_mem_argmax ha hl))]

end Argmax

end Midge
