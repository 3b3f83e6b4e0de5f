import Mathlib

/-!
# Observed durability frontiers

The event loop publishes three durability frontiers for readers that take no
lock. A publication is five atomic operations, of which the first and the last
increment a revision; a load retries until it has read the three values between
two reads of one even revision. Here the operations of the publishing thread
and of any number of loading threads interleave freely.
-/

namespace Midge.Frontiers

/-- The frontiers of the log. -/
structure DurabilityFrontiersSnapshot where
  currentSequence : ℕ
  walLocalDurableSeq : ℕ
  walCloudDurableSeq : ℕ
  deriving DecidableEq, Repr

/-- The published frontiers, each an atomic, with their revision. -/
structure ObservedDurabilityFrontiers extends DurabilityFrontiersSnapshot where
  revision : ℕ := 0

/-- Increment the revision, of 64 bits. -/
def ObservedDurabilityFrontiers.fetchAdd (f : ObservedDurabilityFrontiers) :
    ObservedDurabilityFrontiers :=
  { f with revision := (f.revision + 1) % 2 ^ 64 }

/-- The last operation of the publishing thread, with the snapshot of its call. -/
inductive Publish
  | idle
  | entered (snapshot : DurabilityFrontiersSnapshot)
  | storedCurrent (snapshot : DurabilityFrontiersSnapshot)
  | storedLocal (snapshot : DurabilityFrontiersSnapshot)
  | storedCloud

/-- The last operation of a loading thread, with what it has read. -/
inductive LoadPc
  | looping
  | revisionRead (revision : ℕ)
  | currentRead (revision current : ℕ)
  | localRead (revision current localSeq : ℕ)
  | cloudRead (revision : ℕ) (snapshot : DurabilityFrontiersSnapshot)

/-- A load in progress. The `floor` is the number of publications completed
    before its first operation. -/
structure Load where
  floor : ℕ
  pc : LoadPc

/-- A load that has returned `snapshot`, read at `revision`. -/
structure Loaded where
  thread : ℕ
  floor : ℕ
  revision : ℕ
  snapshot : DurabilityFrontiersSnapshot
  deriving DecidableEq

/-- The publication a load has seen. -/
def Loaded.publication (l : Loaded) : ℕ := l.revision / 2

/-- The frontiers and the threads, with what has happened: the snapshots of the
    calls of `publish`, the initial one first, the calls that have returned,
    and the loads that have. -/
structure World where
  frontiers : ObservedDurabilityFrontiers
  publisher : Publish := .idle
  loading : ℕ → Option Load := fun _ => none
  published : List DurabilityFrontiersSnapshot
  completed : ℕ := 0
  loads : List Loaded := []

/-- Frontiers as they are created. -/
def World.new (snapshot : DurabilityFrontiersSnapshot) : World where
  frontiers := ⟨snapshot, 0⟩
  published := [snapshot]

/-- The next operation of the publishing thread, in a call with `snapshot` if
    it starts one. -/
def World.publish (w : World) (snapshot : DurabilityFrontiersSnapshot) : World :=
  match w.publisher with
  | .idle =>
    { w with
      frontiers := w.frontiers.fetchAdd
      publisher := .entered snapshot
      published := w.published ++ [snapshot] }
  | .entered s =>
    { w with
      frontiers.currentSequence := s.currentSequence
      publisher := .storedCurrent s }
  | .storedCurrent s =>
    { w with
      frontiers.walLocalDurableSeq := s.walLocalDurableSeq
      publisher := .storedLocal s }
  | .storedLocal s =>
    { w with
      frontiers.walCloudDurableSeq := s.walCloudDurableSeq
      publisher := .storedCloud }
  | .storedCloud =>
    { w with
      frontiers := w.frontiers.fetchAdd
      publisher := .idle
      completed := w.completed + 1 }

/-- What the next operation of a load reads: where it goes on, or the revision
    and the snapshot it returns. -/
def LoadPc.next (f : ObservedDurabilityFrontiers) : LoadPc → LoadPc ⊕ ℕ × DurabilityFrontiersSnapshot
  | .looping => .inl (if f.revision % 2 = 1 then .looping else .revisionRead f.revision)
  | .revisionRead revision => .inl (.currentRead revision f.currentSequence)
  | .currentRead revision current => .inl (.localRead revision current f.walLocalDurableSeq)
  | .localRead revision current localSeq =>
    .inl (.cloudRead revision ⟨current, localSeq, f.walCloudDurableSeq⟩)
  | .cloudRead revision snapshot =>
    if f.revision = revision then .inr (revision, snapshot) else .inl .looping

/-- The next operation of a loading thread, which starts a load if it is in none. -/
def World.load (w : World) (thread : ℕ) : World :=
  let current := (w.loading thread).getD ⟨w.completed, .looping⟩
  match current.pc.next w.frontiers with
  | .inl pc => { w with loading := Function.update w.loading thread (some { current with pc }) }
  | .inr (revision, snapshot) =>
    { w with
      loading := Function.update w.loading thread none
      loads := w.loads ++ [⟨thread, current.floor, revision, snapshot⟩] }

/-- One atomic operation, of the publishing thread or of a loading one. -/
inductive Action
  | publish (snapshot : DurabilityFrontiersSnapshot)
  | load (thread : ℕ)

def World.step (w : World) : Action → World
  | .publish snapshot => w.publish snapshot
  | .load thread => w.load thread

/-! ## The parity of the revision -/

/-- Inside a call the revision is odd, and the values stored so far are those
    of the call; outside, the frontiers are those of the last call. -/
def Publishing (w : World) : Prop :=
  let inside := w.frontiers.revision = 2 * w.completed + 1 ∧ w.published.length = w.completed + 2
  match w.publisher with
  | .idle => w.frontiers.revision = 2 * w.completed ∧ w.published.length = w.completed + 1 ∧
      w.published[w.completed]? = some w.frontiers.toDurabilityFrontiersSnapshot
  | .entered s => inside ∧ w.published[w.completed + 1]? = some s
  | .storedCurrent s => inside ∧
      w.published[w.completed + 1]? = some { s with currentSequence := w.frontiers.currentSequence }
  | .storedLocal s => inside ∧ w.published[w.completed + 1]? =
      some ⟨w.frontiers.currentSequence, w.frontiers.walLocalDurableSeq, s.walCloudDurableSeq⟩
  | .storedCloud => inside ∧
      w.published[w.completed + 1]? = some w.frontiers.toDurabilityFrontiersSnapshot

/-- What a load in progress has read is still there if the revision is. -/
def LoadPc.Sees (floor : ℕ) (f : ObservedDurabilityFrontiers) (pc : LoadPc) : Prop :=
  let entered revision := revision % 2 = 0 ∧ 2 * floor ≤ revision ∧ revision ≤ f.revision
  match pc with
  | .looping => True
  | .revisionRead revision => entered revision
  | .currentRead revision current =>
    entered revision ∧ (f.revision = revision → current = f.currentSequence)
  | .localRead revision current localSeq => entered revision ∧
      (f.revision = revision → current = f.currentSequence ∧ localSeq = f.walLocalDurableSeq)
  | .cloudRead revision snapshot => entered revision ∧
      (f.revision = revision → snapshot = f.toDurabilityFrontiersSnapshot)

/-- The state of the frontiers and of all the threads. -/
structure Coherent (snapshot : DurabilityFrontiersSnapshot) (w : World) : Prop where
  first : w.published[0]? = some snapshot
  publishing : Publishing w
  sees : ∀ i l, w.loading i = some l → l.floor ≤ w.completed ∧ l.pc.Sees l.floor w.frontiers ∧
    ∀ d ∈ w.loads, d.thread = i → d.publication ≤ l.floor
  loads : ∀ l ∈ w.loads, w.published[l.publication]? = some l.snapshot ∧
    l.floor ≤ l.publication ∧ l.publication ≤ w.completed
  ordered : w.loads.Pairwise fun a b => a.thread = b.thread → a.publication ≤ b.publication

open List

variable {snapshot : DurabilityFrontiersSnapshot} {w : World}

theorem Coherent.new (snapshot : DurabilityFrontiersSnapshot) :
    Coherent snapshot (.new snapshot) := by
  constructor <;> simp [World.new, Publishing]

/-- What a load has read cannot be mistaken after an operation that leaves the
    revision odd or increments it. -/
theorem LoadPc.Sees.mono {floor : ℕ} {f f' : ObservedDurabilityFrontiers} {pc : LoadPc}
    (h : pc.Sees floor f) (hle : f.revision ≤ f'.revision)
    (hnew : f'.revision % 2 = 1 ∨ f.revision < f'.revision) : pc.Sees floor f' := by
  cases pc <;> grind [LoadPc.Sees]

theorem publish_frame (s : DurabilityFrontiersSnapshot) :
    (w.publish s).loading = w.loading ∧ (w.publish s).loads = w.loads ∧
      w.published <+: (w.publish s).published ∧ w.completed ≤ (w.publish s).completed := by
  rw [World.publish]
  split <;> simp

/-- An operation of a call keeps the state of the call, and leaves the revision
    odd or increments it. -/
theorem Publishing.publish (h : Publishing w) (s : DurabilityFrontiersSnapshot)
    (hcount : (w.publish s).published.length ≤ 2 ^ 63) :
    Publishing (w.publish s) ∧ w.frontiers.revision ≤ (w.publish s).frontiers.revision ∧
      ((w.publish s).frontiers.revision % 2 = 1 ∨
        w.frontiers.revision < (w.publish s).frontiers.revision) := by
  have hodd {r n : ℕ} (hr : r = 2 * n + 1) : r ≤ r ∧ (r % 2 = 1 ∨ r < r) := by omega
  obtain ⟨f, publisher, loading, published, n, loads⟩ := w
  cases publisher with
  | idle =>
    simp only [World.publish, Publishing, ObservedDurabilityFrontiers.fetchAdd, length_append,
      length_singleton] at h hcount ⊢
    rw [Nat.mod_eq_of_lt (by omega), ← h.2.1, getElem?_concat_length]
    exact ⟨⟨by omega, rfl⟩, by omega, .inl (by omega)⟩
  | entered s' | storedCurrent s' | storedLocal s' => exact ⟨h, hodd h.1.1⟩
  | storedCloud =>
    simp only [World.publish, Publishing, ObservedDurabilityFrontiers.fetchAdd] at h hcount ⊢
    rw [Nat.mod_eq_of_lt (by omega)]
    exact ⟨⟨by omega, h.1.2, h.2⟩, by omega, .inr (by omega)⟩

theorem Coherent.publish (h : Coherent snapshot w) (s : DurabilityFrontiersSnapshot)
    (hcount : (w.publish s).published.length ≤ 2 ^ 63) : Coherent snapshot (w.publish s) := by
  obtain ⟨hloading, hloads, hpart, hcompleted⟩ := publish_frame (w := w) s
  obtain ⟨hpublishing, hle, hnew⟩ := h.publishing.publish s hcount
  have hkept {k : ℕ} {x} (hk : w.published[k]? = some x) :
      (w.publish s).published[k]? = some x := by
    obtain ⟨t, ht⟩ := hpart
    rw [← ht, getElem?_append_left (List.getElem?_eq_some_iff.1 hk).1, hk]
  constructor
  · exact hkept h.first
  · exact hpublishing
  · rw [hloading, hloads]
    intro i l hl
    obtain ⟨hfloor, hsees, hnewer⟩ := h.sees i l hl
    exact ⟨hfloor.trans hcompleted, hsees.mono hle hnew, hnewer⟩
  · rw [hloads]
    intro l hl
    obtain ⟨hl, hfloor, hle⟩ := h.loads l hl
    exact ⟨hkept hl, hfloor, hle.trans hcompleted⟩
  · rw [hloads]
    exact h.ordered

/-- A load that has read one even revision twice has read the last publication. -/
theorem Publishing.of_next (h : Publishing w) {floor : ℕ} (hfloor : floor ≤ w.completed)
    {pc : LoadPc} (hsees : pc.Sees floor w.frontiers) :
    (∀ pc', pc.next w.frontiers = .inl pc' → pc'.Sees floor w.frontiers) ∧
      ∀ r s, pc.next w.frontiers = .inr (r, s) →
        w.published[r / 2]? = some s ∧ floor ≤ r / 2 ∧ r / 2 ≤ w.completed := by
  obtain ⟨f, publisher, loading, published, n, loads⟩ := w
  have hrevision : f.revision % 2 = 0 → f.revision = 2 * n ∧
      published[f.revision / 2]? = some f.toDurabilityFrontiersSnapshot := by
    cases publisher <;> grind [Publishing]
  cases pc with
  | looping | revisionRead | currentRead | cloudRead => grind [LoadPc.next, LoadPc.Sees]
  | localRead revision current localSeq =>
    refine ⟨fun pc' hpc => ?_, nofun⟩
    cases hpc
    refine ⟨hsees.1, fun hr => ?_⟩
    rw [(hsees.2 hr).1, (hsees.2 hr).2]

theorem Coherent.load (h : Coherent snapshot w) (i : ℕ) : Coherent snapshot (w.load i) := by
  set current := (w.loading i).getD ⟨w.completed, .looping⟩ with hcurrent
  -- A load that starts here has seen nothing, and no load has seen a newer publication.
  obtain ⟨hfloor, hpc, hnewer⟩ : current.floor ≤ w.completed ∧
      current.pc.Sees current.floor w.frontiers ∧
      ∀ d ∈ w.loads, d.thread = i → d.publication ≤ current.floor := by
    cases hi : w.loading i with
    | none =>
      rw [hcurrent, hi]
      exact ⟨le_rfl, trivial, fun d hd _ => (h.loads d hd).2.2⟩
    | some l =>
      rw [hcurrent, hi]
      exact h.sees i l hi
  obtain ⟨hnext, hreturn⟩ := h.publishing.of_next hfloor hpc
  rw [World.load, ← hcurrent]
  cases hn : current.pc.next w.frontiers with
  | inl pc =>
    refine { h with sees := fun j l hl => ?_ }
    rcases eq_or_ne j i with rfl | hj
    · cases (Function.update_self ..).symm.trans hl
      exact ⟨hfloor, hnext pc hn, hnewer⟩
    · exact h.sees j l ((Function.update_of_ne hj ..).symm.trans hl)
  | inr result =>
    obtain ⟨r, s⟩ := result
    have hs := hreturn r s hn
    refine { h with sees := fun j l hl => ?_, loads := ?_, ordered := ?_ }
    · have hj : j ≠ i := fun hj => by simp [hj] at hl
      obtain ⟨hfloor, hsees, hnewer⟩ := h.sees j l ((Function.update_of_ne hj ..).symm.trans hl)
      refine ⟨hfloor, hsees, fun d hd hthread => ?_⟩
      rcases mem_append.1 hd with hd | hd
      · exact hnewer d hd hthread
      · exact absurd (hthread.symm.trans (congrArg _ (mem_singleton.1 hd))) hj
    · simp only [mem_append, mem_singleton]
      rintro l (hl | rfl)
      · exact h.loads l hl
      · exact hs
    · refine pairwise_append.2 ⟨h.ordered, pairwise_singleton _ _, fun d hd l hl hthread => ?_⟩
      cases mem_singleton.1 hl
      exact (hnewer d hd hthread).trans hs.2.1

/-- In every interleaving of one publishing thread, with fewer than `2 ^ 63`
    calls, and of any number of loading threads: a load returns the values of
    one call, or the initial ones, which is not older than the last one that has
    returned before the load began, nor than any that the thread has seen. -/
theorem load_spec (snapshot : DurabilityFrontiersSnapshot) (actions : List Action)
    (hcount : (actions.foldl World.step (.new snapshot)).published.tail.length < 2 ^ 63) :
    let w := actions.foldl World.step (.new snapshot)
    w.published[0]? = some snapshot ∧
      (∀ l ∈ w.loads, w.published[l.publication]? = some l.snapshot ∧ l.floor ≤ l.publication) ∧
      w.loads.Pairwise fun a b => a.thread = b.thread → a.publication ≤ b.publication := by
  intro w
  suffices h : Coherent snapshot w from
    ⟨h.first, fun l hl => ⟨(h.loads l hl).1, (h.loads l hl).2.1⟩, h.ordered⟩
  have hlength : w.published.length ≤ 2 ^ 63 := by grind
  clear hcount
  -- The induction is on the last action: the calls are counted at the end of the run.
  induction actions using reverseRecOn with
  | nil => exact .new snapshot
  | append_singleton actions a ih =>
    simp only [w, foldl_concat] at ih hlength ⊢
    cases a with
    | publish s =>
      exact (ih ((publish_frame s).2.2.1.length_le.trans hlength)).publish s hlength
    | load i =>
      refine (ih (le_of_eq_of_le ?_ hlength)).load i
      rw [World.step, World.load]
      split <;> rfl

/-- A load that a publication crosses reads again, and returns what was published. -/
theorem load_spec_crossed :
    let crossed : List Action :=
      .load 7 :: replicate 5 (.publish ⟨1, 1, 1⟩) ++ replicate 9 (.load 7)
    let w := crossed.foldl World.step (.new ⟨0, 0, 0⟩)
    w.loads = [⟨7, 0, 2, ⟨1, 1, 1⟩⟩] ∧ w.published[1]? = some ⟨1, 1, 1⟩ := by
  intro crossed w
  have hloads : w.loads = [⟨7, 0, 2, ⟨1, 1, 1⟩⟩] := by decide +kernel
  obtain ⟨-, hseen, -⟩ := load_spec ⟨0, 0, 0⟩ crossed (by decide +kernel)
  exact ⟨hloads, (hseen ⟨7, 0, 2, ⟨1, 1, 1⟩⟩ (hloads ▸ mem_cons_self)).1⟩

end Midge.Frontiers
