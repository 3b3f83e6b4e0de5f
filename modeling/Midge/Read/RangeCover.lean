import Midge.Lib.Newest
import Midge.Types

/-!
# Range coverage along a scan

A scan visits keys in one direction, and asks for each of them for the newest
range tombstone that covers it. A range waits until the scan reaches it, and is
then kept, by its sequence, until the scan has passed it. Ranges may be added
while the scan goes on.

The answer is the highest sequence among all the ranges inserted so far that cover
the key (`RangeCoverSweep.Stands.maxCoverSeq`).
-/

namespace Midge

open List

/-! ## Directions -/

/-- The first key comes before the second one in a scan. -/
def Ahead (reverse : Bool) (a b : Key) : Prop := if reverse then b < a else a < b

instance (reverse : Bool) (a b : Key) : Decidable (Ahead reverse a b) :=
  inferInstanceAs (Decidable (if reverse then _ else _))

section Ahead

variable {reverse : Bool} {a b c : Key}

@[simp]
theorem ahead_false : Ahead false a b ↔ a < b := .rfl

@[simp]
theorem ahead_true : Ahead true a b ↔ b < a := .rfl

theorem Ahead.trans (h : Ahead reverse a b) (h' : Ahead reverse b c) : Ahead reverse a c := by
  cases reverse
  exacts [lt_trans h h', lt_trans h' h]

theorem not_ahead_self : ¬ Ahead reverse a a := by cases reverse <;> simp

theorem Ahead.not_ahead (h : Ahead reverse a b) : ¬ Ahead reverse b a :=
  fun h' => not_ahead_self (h.trans h')

theorem Ahead.ne (h : Ahead reverse a b) : a ≠ b := by
  rintro rfl
  exact not_ahead_self h

theorem ahead_trichotomy (reverse : Bool) (a b : Key) :
    Ahead reverse a b ∨ a = b ∨ Ahead reverse b a := by
  cases reverse
  · exact lt_trichotomy a b
  · rcases lt_trichotomy a b with h | h | h
    exacts [.inr (.inr h), .inr (.inl h), .inl h]

theorem ahead_of_not_ahead (h : ¬ Ahead reverse b a) (hne : a ≠ b) : Ahead reverse a b := by
  rcases ahead_trichotomy reverse a b with h' | h' | h'
  exacts [h', absurd h' hne, absurd h' h]

theorem Ahead.of_not_ahead (h : Ahead reverse a b) (h' : ¬ Ahead reverse c b) :
    Ahead reverse a c := by
  rcases eq_or_ne b c with rfl | hne
  exacts [h, h.trans (ahead_of_not_ahead h' hne)]

theorem Ahead.of_not_ahead_left (h : Ahead reverse a c) (h' : ¬ Ahead reverse a b) :
    Ahead reverse b c := by
  rcases eq_or_ne b a with rfl | hne
  exacts [h, (ahead_of_not_ahead h' hne).trans h]

end Ahead

/-! ## The sweep -/

/-- A range waiting for the scan to reach it. -/
structure Pending where
  /-- A forward scan reaches the range at its start, a reverse one at its end. -/
  activation : Key
  retirement : Key
  seq : ℕ
  deriving DecidableEq, Repr

/-- A range that the scan has reached. -/
structure Active where
  seq : ℕ
  retirement : Key
  deriving DecidableEq, Repr

/-- The ranges of a scan. The heaps are lists in the order in which they are
    popped. -/
structure RangeCoverSweep where
  reverse : Bool
  pending : List Pending := []
  /-- From the newest. -/
  active : List Active := []
  /-- The last key asked for. -/
  position : Option Key := none
  deriving DecidableEq, Repr

variable {pending : List Pending} {active : List Active} {reverse : Bool} {range : Pending}
  {key : Key}

namespace RangeCoverSweep

/-- Whether a scan at `key` has passed a range. -/
def retired (reverse : Bool) (retirement key : Key) : Bool :=
  if reverse then decide (key < retirement) else decide (retirement ≤ key)

/-- Whether a scan at `key` has reached a range. -/
def reached (reverse : Bool) (activation key : Key) : Bool :=
  if reverse then decide (key < activation) else decide (activation ≤ key)

/-- Push onto the pending ranges. -/
def pushPending (reverse : Bool) (range : Pending) (pending : List Pending) : List Pending :=
  pending.orderedInsert (fun r r' => ¬ Ahead reverse r'.activation r.activation) range

/-- Push onto the active ranges. -/
def pushActive (range : Active) (active : List Active) : List Active :=
  active.orderedInsert (fun r r' => r'.seq ≤ r.seq) range

/-- The keys at which a scan reaches a range, and passes it. -/
def endpoints (reverse : Bool) (start stop : Key) : Key × Key :=
  if reverse then (stop, start) else (start, stop)

/-- Add the range `[start, stop)`. -/
def insert (sweep : RangeCoverSweep) (start stop : Key) (seq : ℕ) : RangeCoverSweep :=
  if stop ≤ start then sweep
  else
    let (activation, retirement) := endpoints sweep.reverse start stop
    if sweep.position.any (reached sweep.reverse activation) then
      if sweep.position.any (retired sweep.reverse retirement) then sweep
      else { sweep with active := pushActive ⟨seq, retirement⟩ sweep.active }
    else
      { sweep with pending := pushPending sweep.reverse ⟨activation, retirement, seq⟩ sweep.pending }

/-- Move the ranges that the scan reaches at `key` to the active ones. -/
def activate (reverse : Bool) (key : Key) : List Pending → List Active → List Pending × List Active
  | [], active => ([], active)
  | head :: pending, active =>
    if reached reverse head.activation key then
      activate reverse key pending
        (if retired reverse head.retirement key then active
          else pushActive ⟨head.seq, head.retirement⟩ active)
    else (head :: pending, active)

/-- The highest sequence of the ranges covering `key`. Keys are asked for in the
    direction of the scan. -/
def maxCoverSeq (sweep : RangeCoverSweep) (key : Key) : Option ℕ × RangeCoverSweep :=
  let (pending, active) := activate sweep.reverse key sweep.pending sweep.active
  let active := active.dropWhile fun head => retired sweep.reverse head.retirement key
  (active.head?.map Active.seq, { sweep with pending, active, position := some key })

/-! ## What the sweep answers -/

/-- What is kept of the ranges: a sequence at which some range, pending or active,
    covers the key. -/
def CoversAt (reverse : Bool) (pending : List Pending) (active : List Active) (key : Key)
    (seq : ℕ) : Prop :=
  (∃ r ∈ pending, reached reverse r.activation key ∧ retired reverse r.retirement key = false ∧
    r.seq = seq) ∨ ∃ r ∈ active, retired reverse r.retirement key = false ∧ r.seq = seq

/-- The sweep stands for a set of ranges, at all the keys that may still be asked
    for. -/
structure Stands (sweep : RangeCoverSweep) (ranges : Set RangeTombstone) : Prop where
  covers : ∀ key, (∀ p ∈ sweep.position, ¬ Ahead sweep.reverse key p) → ∀ seq,
    CoversAt sweep.reverse sweep.pending sweep.active key seq ↔
      ∃ t ∈ ranges, t.Covers key ∧ t.seq = seq
  pending : sweep.pending.Pairwise fun r r' => ¬ Ahead sweep.reverse r'.activation r.activation
  active : sweep.active.Pairwise fun r r' => r'.seq ≤ r.seq

theorem stands_new (reverse : Bool) : Stands { reverse } ∅ := by
  constructor <;> simp [CoversAt]

section Basic

variable {reverse : Bool} {start stop p key : Key}

/-- A range covers the keys that a scan sees from the reaching to the passing of
    it, in either direction. -/
theorem reached_and_not_retired (reverse : Bool) (start stop key : Key) :
    (reached reverse (endpoints reverse start stop).1 key ∧
      retired reverse (endpoints reverse start stop).2 key = false) ↔ start ≤ key ∧ key < stop := by
  cases reverse <;> simp [endpoints, reached, retired, and_comm]

/-- What has been reached stays so. -/
theorem reached_of_not_ahead (h : reached reverse start p) (hp : ¬ Ahead reverse key p) :
    reached reverse start key := by
  cases reverse
  · simp only [reached, ahead_false, Bool.false_eq_true, if_false, decide_eq_true_eq, not_lt] at *
    exact h.trans hp
  · simp only [reached, ahead_true, if_true, decide_eq_true_eq, not_lt] at *
    exact hp.trans_lt h

/-- A range that is not reached before another one is not reached if that is not. -/
theorem not_reached_of_not_ahead {start' : Key} (h : reached reverse start key = false)
    (ha : ¬ Ahead reverse start' start) : reached reverse start' key = false := by
  cases reverse
  · simp only [reached, ahead_false, Bool.false_eq_true, if_false, decide_eq_false_iff_not,
      not_lt, not_le] at *
    exact h.trans_le ha
  · simp only [reached, ahead_true, if_true, decide_eq_false_iff_not, not_lt] at *
    exact ha.trans h

/-- What has been passed stays so. -/
theorem retired_of_not_ahead (h : retired reverse stop p) (hp : ¬ Ahead reverse key p) :
    retired reverse stop key :=
  reached_of_not_ahead h hp

end Basic

theorem coversAt_pushActive {range : Active} {seq : ℕ} :
    CoversAt reverse pending (pushActive range active) key seq ↔
      (retired reverse range.retirement key = false ∧ range.seq = seq) ∨
        CoversAt reverse pending active key seq := by
  simp only [CoversAt, pushActive, mem_orderedInsert, or_and_right, exists_or, exists_eq_left]
  rw [or_left_comm]

theorem coversAt_cons {seq : ℕ} :
    CoversAt reverse (range :: pending) active key seq ↔
      (reached reverse range.activation key ∧ retired reverse range.retirement key = false ∧
        range.seq = seq) ∨ CoversAt reverse pending active key seq := by
  simp only [CoversAt, mem_cons, or_and_right, exists_or, exists_eq_left]
  rw [or_assoc]

theorem coversAt_pushPending {seq : ℕ} :
    CoversAt reverse (pushPending reverse range pending) active key seq ↔
      CoversAt reverse (range :: pending) active key seq := by
  simp only [CoversAt, pushPending, mem_orderedInsert, mem_cons]

theorem pairwise_pushPending
    (h : pending.Pairwise fun r r' => ¬ Ahead reverse r'.activation r.activation) :
    (pushPending reverse range pending).Pairwise
      fun r r' => ¬ Ahead reverse r'.activation r.activation := by
  have : Std.Total fun r r' : Pending => ¬ Ahead reverse r'.activation r.activation :=
    ⟨fun r r' => not_and_or.1 fun h => h.1.not_ahead h.2⟩
  have : IsTrans Pending fun r r' => ¬ Ahead reverse r'.activation r.activation :=
    ⟨fun _ _ _ h h' h'' => h (h''.of_not_ahead_left h')⟩
  exact List.Pairwise.orderedInsert _ _ h

theorem pairwise_pushActive (range : Active) (h : active.Pairwise fun r r' => r'.seq ≤ r.seq) :
    (pushActive range active).Pairwise fun r r' => r'.seq ≤ r.seq := by
  have : Std.Total fun r r' : Active => r'.seq ≤ r.seq := ⟨fun r r' => le_total _ _⟩
  have : IsTrans Active fun r r' => r'.seq ≤ r.seq := ⟨fun _ _ _ h h' => h'.trans h⟩
  exact List.Pairwise.orderedInsert _ _ h

variable {sweep : RangeCoverSweep} {ranges : Set RangeTombstone}

@[simp]
theorem insert_reverse (start stop : Key) (seq : ℕ) :
    (sweep.insert start stop seq).reverse = sweep.reverse := by
  simp only [insert]
  split_ifs <;> rfl

@[simp]
theorem insert_position (start stop : Key) (seq : ℕ) :
    (sweep.insert start stop seq).position = sweep.position := by
  simp only [insert]
  split_ifs <;> rfl

/-- A range may be added at any time, for the keys to come. -/
theorem Stands.insert (h : sweep.Stands ranges) (t : RangeTombstone) :
    (sweep.insert t.start t.stop t.seq).Stands (Insert.insert t ranges) := by
  -- What is left to show once the range is accounted for at the keys to come.
  have hcovers : ∀ pending active, (∀ key, (∀ p ∈ sweep.position, ¬ Ahead sweep.reverse key p) →
      ∀ seq, CoversAt sweep.reverse pending active key seq ↔
        (t.Covers key ∧ t.seq = seq) ∨ CoversAt sweep.reverse sweep.pending sweep.active key seq) →
      ∀ key, (∀ p ∈ sweep.position, ¬ Ahead sweep.reverse key p) → ∀ seq,
        CoversAt sweep.reverse pending active key seq ↔
          ∃ t' ∈ Insert.insert t ranges, t'.Covers key ∧ t'.seq = seq := by
    intro pending active hnew key hkey seq
    simp [hnew key hkey seq, h.covers key hkey seq]
  simp only [RangeCoverSweep.insert]
  split_ifs with hempty hreached hretired
  · refine ⟨hcovers _ _ fun key _ seq => ?_, h.pending, h.active⟩
    have : ¬ t.Covers key := fun hk => absurd (hk.1.trans_lt hk.2) hempty.not_gt
    simp [this]
  · refine ⟨hcovers _ _ fun key hkey seq => ?_, h.pending, h.active⟩
    obtain ⟨p, hp, hr⟩ := Option.any_eq_true .. |>.1 hretired
    have : ¬ t.Covers key := fun hk => by
      have := (reached_and_not_retired sweep.reverse _ _ key).2 hk
      rw [retired_of_not_ahead hr (hkey p hp)] at this
      cases this.2
    simp [this]
  · refine ⟨hcovers _ _ fun key hkey seq => ?_, h.pending, pairwise_pushActive _ h.active⟩
    obtain ⟨p, hp, hr⟩ := Option.any_eq_true .. |>.1 hreached
    have hcover := reached_and_not_retired sweep.reverse t.start t.stop key
    simp only [reached_of_not_ahead hr (hkey p hp), true_and] at hcover
    rw [coversAt_pushActive, hcover]
    rfl
  · refine ⟨hcovers _ _ fun key hkey seq => ?_, pairwise_pushPending h.pending, h.active⟩
    have hcover := reached_and_not_retired sweep.reverse t.start t.stop key
    rw [coversAt_pushPending, coversAt_cons, ← and_assoc, hcover]
    rfl

/-- Moving ranges to the active ones changes nothing at the keys to come. -/
theorem of_activate (key : Key)
    (hpending : pending.Pairwise fun r r' => ¬ Ahead reverse r'.activation r.activation)
    (hactive : active.Pairwise fun r r' => r'.seq ≤ r.seq) :
    let (pending', active') := activate reverse key pending active
    (∀ key', ¬ Ahead reverse key' key → ∀ seq,
      CoversAt reverse pending' active' key' seq ↔ CoversAt reverse pending active key' seq) ∧
    (∀ r ∈ pending', reached reverse r.activation key = false) ∧
    (pending'.Pairwise fun r r' => ¬ Ahead reverse r'.activation r.activation) ∧
    active'.Pairwise fun r r' => r'.seq ≤ r.seq := by
  induction pending generalizing active with
  | nil => exact ⟨fun _ _ _ => .rfl, by simp, .nil, hactive⟩
  | cons head pending ih =>
    rw [activate]
    split_ifs with hreached hretired
    · obtain ⟨hcovers, hrest⟩ := ih (pairwise_cons.1 hpending).2 hactive
      refine ⟨fun key' hkey' seq => (hcovers key' hkey' seq).trans ?_, hrest⟩
      simp [coversAt_cons, retired_of_not_ahead hretired hkey']
    · obtain ⟨hcovers, hrest⟩ := ih (pairwise_cons.1 hpending).2
        (pairwise_pushActive ⟨head.seq, head.retirement⟩ hactive)
      refine ⟨fun key' hkey' seq => (hcovers key' hkey' seq).trans ?_, hrest⟩
      rw [coversAt_pushActive, coversAt_cons, reached_of_not_ahead hreached hkey']
      simp
    · refine ⟨fun _ _ _ => .rfl, fun r hr => ?_, hpending, hactive⟩
      rcases mem_cons.1 hr with rfl | hr
      · simpa using hreached
      · exact not_reached_of_not_ahead (by simpa using hreached)
          ((pairwise_cons.1 hpending).1 r hr)

/-- The answer is the highest sequence of the ranges that cover the key, and the
    sweep still stands for the same ranges. -/
theorem Stands.maxCoverSeq (h : sweep.Stands ranges)
    (hkey : ∀ p ∈ sweep.position, ¬ Ahead sweep.reverse key p) :
    IsNewest id {seq | ∃ t ∈ ranges, t.Covers key ∧ t.seq = seq} (sweep.maxCoverSeq key).1 ∧
      (sweep.maxCoverSeq key).2.Stands ranges := by
  obtain ⟨hcovers, hreached, hpending, hactive⟩ :=
    of_activate key h.pending h.active
  simp only [RangeCoverSweep.maxCoverSeq]
  generalize activate sweep.reverse key sweep.pending sweep.active = moved at *
  obtain ⟨pending, active⟩ := moved
  simp only at hcovers hreached hpending hactive ⊢
  -- The ranges dropped from the active ones have been passed.
  have hdrop : ∀ key', ¬ Ahead sweep.reverse key' key → ∀ seq,
      CoversAt sweep.reverse pending
        (active.dropWhile fun head => retired sweep.reverse head.retirement key) key' seq ↔
      ∃ t ∈ ranges, t.Covers key' ∧ t.seq = seq := by
    intro key' hkey' seq
    have hposition : ∀ p ∈ sweep.position, ¬ Ahead sweep.reverse key' p := fun p hp ha =>
      hkey p hp (ha.of_not_ahead_left hkey')
    rw [← h.covers key' hposition seq, ← hcovers key' hkey' seq, CoversAt, CoversAt]
    refine or_congr_right ⟨fun ⟨r, hr, h⟩ => ⟨r, (dropWhile_sublist _).mem hr, h⟩, ?_⟩
    rintro ⟨r, hr, hretired, hseq⟩
    refine ⟨r, ?_, hretired, hseq⟩
    rw [← takeWhile_append_dropWhile (l := active)
      (p := fun head => retired sweep.reverse head.retirement key), mem_append] at hr
    refine hr.resolve_left fun hr => ?_
    have hpassed : retired sweep.reverse r.retirement key := by simpa using mem_takeWhile_imp hr
    rw [retired_of_not_ahead hpassed hkey'] at hretired
    cases hretired
  have hsorted := hactive.sublist
    (dropWhile_sublist fun head : Active => retired sweep.reverse head.retirement key)
  refine ⟨?_, ?_, hpending, hsorted⟩
  · have hset : {seq | ∃ t ∈ ranges, t.Covers key ∧ t.seq = seq} = {seq | CoversAt sweep.reverse
        pending (active.dropWhile fun head => retired sweep.reverse head.retirement key) key seq} :=
      Set.ext fun seq => (hdrop key not_ahead_self seq).symm
    rw [hset]
    cases hhead : active.dropWhile fun head => retired sweep.reverse head.retirement key with
    | nil =>
      refine Set.eq_empty_iff_forall_notMem.2 ?_
      rintro seq (⟨r, hr, hr', -⟩ | ⟨r, hr, -⟩)
      · rw [hreached r hr] at hr'
        cases hr'
      · simp at hr
    | cons head rest =>
      rw [hhead] at hsorted
      refine ⟨.inr ⟨head, mem_cons_self, ?_, rfl⟩, ?_⟩
      · have := head?_dropWhile_not (fun head : Active =>
          retired sweep.reverse head.retirement key) active
        rw [hhead] at this
        simpa using this
      · rintro seq (⟨r, hr, hr', -⟩ | ⟨r, hr, -, rfl⟩)
        · rw [hreached r hr] at hr'
          cases hr'
        · rcases mem_cons.1 hr with rfl | hr
          exacts [le_rfl, (pairwise_cons.1 hsorted).1 r hr]
  · intro key' hkey' seq
    exact hdrop key' (hkey' key rfl) seq

/-! ## A whole scan -/

/-- What a scan asks of the sweep. -/
inductive Call
  | insert (range : RangeTombstone)
  | query (key : Key)

/-- The keys asked for. -/
def queries : List Call → List Key
  | [] => []
  | .insert _ :: calls => queries calls
  | .query key :: calls => key :: queries calls

/-- The answers to the queries. -/
def answers (sweep : RangeCoverSweep) : List Call → List (Option ℕ)
  | [] => []
  | .insert t :: calls => (sweep.insert t.start t.stop t.seq).answers calls
  | .query key :: calls =>
    let (answer, sweep) := sweep.maxCoverSeq key
    answer :: sweep.answers calls

/-- The sequences of the ranges covering the key, among those kept before and
    those inserted by the calls. -/
def coverSeqs (ranges : Set RangeTombstone) (calls : List Call) (key : Key) : Set ℕ :=
  {seq | ∃ t, (t ∈ ranges ∨ .insert t ∈ calls) ∧ t.Covers key ∧ t.seq = seq}

/-- Every range is inserted before the first query it covers. -/
def InTime : List Call → Prop
  | [] => True
  | .insert _ :: calls => InTime calls
  | .query key :: calls => (∀ t, .insert t ∈ calls → ¬ t.Covers key) ∧ InTime calls

/-- From a sweep that stands for some ranges on, every query of a scan is answered
    by the highest sequence of the ranges that cover the key. -/
theorem Stands.answers {calls : List Call} (h : sweep.Stands ranges)
    (hposition : ∀ p ∈ sweep.position, ∀ key ∈ queries calls, ¬ Ahead sweep.reverse key p)
    (hscan : (queries calls).Pairwise fun key key' => ¬ Ahead sweep.reverse key' key)
    (htime : InTime calls) :
    Forall₂ (fun key answer => IsNewest id (coverSeqs ranges calls key) answer) (queries calls)
      (sweep.answers calls) := by
  induction calls generalizing sweep ranges with
  | nil => exact .nil
  | cons call calls ih =>
    cases call with
    | insert t =>
      have hrest := ih (h.insert t) (by rwa [insert_position, insert_reverse])
        (by rwa [insert_reverse]) htime
      refine hrest.imp fun key answer hanswer => ?_
      have hset : coverSeqs ranges (.insert t :: calls) key =
          coverSeqs (Insert.insert t ranges) calls key := by
        ext seq
        simp only [coverSeqs, mem_cons, Call.insert.injEq, Set.mem_insert_iff]
        exact exists_congr fun t' => and_congr_left fun _ => by tauto
      rwa [hset]
    | query key =>
      obtain ⟨hnow, hlater⟩ := pairwise_cons.1 hscan
      obtain ⟨hanswer, hstands⟩ := h.maxCoverSeq fun p hp => hposition p hp key mem_cons_self
      refine .cons ?_ ?_
      · -- What is inserted later does not cover the key.
        have hset : coverSeqs ranges (.query key :: calls) key =
            {seq | ∃ t ∈ ranges, t.Covers key ∧ t.seq = seq} := by
          ext seq
          refine ⟨fun ⟨t, hin, ht⟩ => ⟨t, hin.resolve_right fun hcall => ?_, ht⟩,
            fun ⟨t, hin, ht⟩ => ⟨t, .inl hin, ht⟩⟩
          exact htime.1 t (by simpa using hcall) ht.1
        rwa [hset]
      · have hset : coverSeqs ranges (.query key :: calls) = coverSeqs ranges calls := by
          funext key'
          simp [coverSeqs]
        rw [hset]
        exact ih hstands (by rintro p ⟨⟩; exact hnow) hlater htime.2

/-- Whatever is inserted between the queries, each of them is answered by the highest
    sequence of all the ranges that cover the key, if the keys come in the direction
    of the scan and no range comes too late. -/
theorem answers_newest (reverse : Bool) (calls : List Call)
    (hscan : (queries calls).Pairwise fun key key' => ¬ Ahead reverse key' key)
    (htime : InTime calls) :
    Forall₂ (fun key answer =>
        IsNewest id {seq | ∃ t, .insert t ∈ calls ∧ t.Covers key ∧ t.seq = seq} answer)
      (queries calls) (({ reverse } : RangeCoverSweep).answers calls) := by
  have h := (stands_new reverse).answers (by simp) hscan htime
  simpa [coverSeqs] using h

theorem answers_newest_two :
    Forall₂ (fun key answer => IsNewest id {seq | ∃ t, Call.insert t ∈
        [.insert ⟨[1], [9], 4⟩, .query [2], .insert ⟨[3], [5], 7⟩, .query [6]] ∧
        t.Covers key ∧ t.seq = seq} answer)
      [[2], [6]] [some 4, some 4] := by
  refine answers_newest false [.insert ⟨[1], [9], 4⟩, .query [2], .insert ⟨[3], [5], 7⟩, .query [6]]
    (by decide) ⟨fun t ht => ?_, by simp, trivial⟩
  have ht : t = ⟨[3], [5], 7⟩ := by simpa using ht
  have hlt : ([2] : Key) < [3] := by decide
  rw [ht]
  exact fun hcovers => absurd hcovers.1 (not_le.2 hlt)

end RangeCoverSweep

end Midge
