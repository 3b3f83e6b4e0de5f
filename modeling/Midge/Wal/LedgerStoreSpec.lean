import Midge.Wal.LedgerSpec
import Midge.Wal.LedgerStore

/-!
# Reopening the LEDGER journal after a crash

The synced bytes of the file are always a journal of the ledger: a snapshot, and
frames of edits that lead from it to the ledger of the store (`StoreWorld.Holds`). What
may come after them is a part of one frame, that of an edit whose append has failed or
is under way. So the bytes that are there after a crash read as the ledger of the
acknowledged edits, or as that ledger and the one edit more
(`JsonCodec.reopen_after_crash`).

A crash in the middle of a call leaves the disk as the call leaves it when the call of
the file system under way fails; so the crashes are those after runs of calls that may
end with a failure.

A frame that has been altered is told from a torn one by a frame after it. The last
frame of a file has none after it: when it is altered, the edit is lost
(`altered_tail_is_torn`).
-/

namespace Midge

open List hiding Vector
open Update JsonCodec WalLedger

/-! ## Frames -/

/-- The decoder reads what the encoder writes, and there is no zero byte in a JSON
    text. -/
structure JsonCodec.Lawful (json : JsonCodec) : Prop where
  fromSlice_toVec : ∀ image, json.fromSlice (json.toVec image) = .ok image
  zero_notMem : ∀ payload image, json.fromSlice payload = .ok image → byte 0 ∉ payload

variable {payload : List Byte}

variable {bytes : List Byte}

/-- No bytes but those of the frame pass for a frame: neither at the start of what is
    left of it nor, when they have no zero byte, further on. -/
def ChecksumTells (frame left : List Byte) : Prop :=
  ∀ start payload len, checkedFrame (left.drop start) = some (payload, len) →
    (start = 0 ∨ byte 0 ∉ payload) → (left.drop start).take len = frame

variable {frame left : List Byte}

/-- A part of a frame that passes for a frame is the whole frame. -/
theorem ChecksumTells.eq (h : ChecksumTells frame left) (hle : left.length ≤ frame.length)
    {start len : ℕ} (hchecked : checkedFrame (left.drop start) = some (payload, len))
    (hzero : start = 0 ∨ byte 0 ∉ payload) (hframe : frame ≠ []) : start = 0 ∧ left = frame := by
  have htake := h start payload len hchecked hzero
  have hlen := congrArg List.length htake
  have hpos : 0 < frame.length := length_pos_of_ne_nil hframe
  simp only [length_take, length_drop] at hlen
  have hstart : start = 0 := by omega
  refine ⟨hstart, ?_⟩
  rw [hstart, drop_zero] at htake
  rw [← htake, take_of_length_le]
  omega

variable {ledger' ledger : WalLedger} {edit : LedgerEdit} {damaged rest : List Byte}

namespace JsonCodec

variable {json : JsonCodec}

/-- The frame of an edit. -/
def editFrame (json : JsonCodec) (edit : LedgerEdit) : List Byte :=
  frameBytes (json.toVec (.edit edit))

/-- The frame of a snapshot. -/
def snapshotFrame (json : JsonCodec) (ledger : WalLedger) : List Byte :=
  frameBytes (json.toVec (.snapshot ledger.image))

/-- The payload is within the limit of a frame. -/
def Fits (json : JsonCodec) (image : FrameImage) : Prop := (json.toVec image).length < 256 ^ 4

theorem encodeFrame_eq_ok {image : FrameImage} {frame : List Byte} :
    json.encodeFrame image = .ok frame ↔ json.Fits image ∧ frame = frameBytes (json.toVec image) := by
  simp only [encodeFrame, except_bind_eq_ok, ensure_eq_ok, Fits]
  constructor
  · rintro ⟨_, hfits, h⟩
    cases h
    exact ⟨hfits, rfl⟩
  · rintro ⟨hfits, rfl⟩
    exact ⟨(), hfits, rfl⟩

section NextFrame

variable {bytes rest : List Byte} {start : ℕ}

end NextFrame

/-! ## Journals -/

/-- The edits lead from one ledger to another, and their frames can be written. -/
inductive Replays (json : JsonCodec) : WalLedger → List LedgerEdit → WalLedger → Prop
  | nil {ledger : WalLedger} : Replays json ledger [] ledger
  | cons {ledger ledger' ledger'' : WalLedger} {edit : LedgerEdit} {edits : List LedgerEdit}
      (happly : WalLedger.apply edit ledger = .ok () ledger') (hfits : json.Fits (.edit edit))
      (hrest : Replays json ledger' edits ledger'') : Replays json ledger (edit :: edits) ledger''

theorem Replays.concat {ledger'' : WalLedger} {edits : List LedgerEdit}
    (h : Replays json ledger edits ledger')
    (happly : WalLedger.apply edit ledger' = .ok () ledger'') (hfits : json.Fits (.edit edit)) :
    Replays json ledger (edits ++ [edit]) ledger'' := by
  induction h with
  | nil => exact .cons happly hfits .nil
  | cons happly' hfits' _ ih => exact .cons happly' hfits' (ih happly)

theorem Replays.fits {edits : List LedgerEdit} (h : Replays json ledger edits ledger')
    (hedit : edit ∈ edits) : json.Fits (.edit edit) := by
  induction h with
  | nil => cases hedit
  | cons _ hfits _ ih =>
    rcases mem_cons.1 hedit with rfl | hedit
    exacts [hfits, ih hedit]

/-- The frames of a journal. -/
def journalFrames (json : JsonCodec) (base : WalLedger) (edits : List LedgerEdit) :
    List (List Byte) :=
  json.snapshotFrame base :: edits.map json.editFrame

/-- The bytes of a journal. -/
def journal (json : JsonCodec) (base : WalLedger) (edits : List LedgerEdit) : List Byte :=
  ledgerHeader ++ (json.journalFrames base edits).flatten

section Parse

variable {base ledger : WalLedger} {edits : List LedgerEdit} {bytes rest : List Byte} {start : ℕ}

theorem Replays.of_append {before after : List LedgerEdit}
    (h : Replays json base (before ++ after) ledger) :
    ∃ ledger', Replays json base before ledger' ∧ Replays json ledger' after ledger := by
  induction before generalizing base with
  | nil => exact ⟨base, .nil, h⟩
  | cons edit before ih =>
    cases h with
    | cons happly hfits hrest =>
      obtain ⟨ledger', hbefore, hafter⟩ := ih hrest
      exact ⟨ledger', .cons happly hfits hbefore, hafter⟩

theorem journal_nil (ledger : WalLedger) :
    ledgerHeader ++ frameBytes (json.toVec (.snapshot ledger.image)) = json.journal ledger [] := by
  simp [journal, journalFrames, snapshotFrame]

section

variable (hjson : json.Lawful) (hloads : base.Loads) (hfits : json.Fits (.snapshot base.image))
  (h : Replays json base edits ledger)

include hjson hloads hfits h

end

end Parse

end JsonCodec

/-! ## Stores -/

/-- What holds of a store and its disk between calls: the ledger can be read back, the
    synced bytes are a journal of it, and what else may be there after a crash is a
    snapshot of it, or a part of the frame of an edit that has failed. -/
structure StoreWorld.Holds (json : JsonCodec) (acked failed : List LedgerEdit)
    (world : StoreWorld) : Prop where
  chained : world.store.ledger.Chained
  loads : world.store.ledger.Loads
  journal : ∃ base edits, world.disk.file = json.journal base edits ∧ base.Loads ∧
    json.Fits (.snapshot base.image) ∧ json.Replays base edits world.store.ledger ∧
    edits <:+ acked
  renamed : ∀ bytes ∈ world.disk.renamed, bytes = json.journal world.store.ledger [] ∧
    json.Fits (.snapshot world.store.ledger.image)
  pending : world.disk.pending = [] ∨ ∃ edit ∈ failed, ∃ ledger',
    world.disk.pending = json.editFrame edit ∧ json.Fits (.edit edit) ∧
      WalLedger.apply edit world.store.ledger = .ok () ledger'
  /-- When no write has failed the store knows the bytes of the file. -/
  known : world.store.failed = false → world.store.fenced = false →
    world.disk.pending = [] ∧ world.disk.renamed = none ∧
      world.store.len = world.disk.file.length ∧
      ∀ image ∈ world.store.image, image = world.disk.file

theorem LedgerStore.of_afterFailure (store : LedgerStore) (error : MidgeError) :
    (store.afterFailure error).ledger = store.ledger ∧
      ((store.afterFailure error).failed = true ∨ (store.afterFailure error).fenced = true) := by
  cases error with
  | fenced message => exact ⟨rfl, .inr rfl⟩
  | _ => exact ⟨rfl, .inl rfl⟩

namespace StoreWorld

variable {json : JsonCodec} {acked failed : List LedgerEdit} {world : StoreWorld}

/-- A snapshot of the ledger is a journal of it. -/
theorem holds_published (hchained : world.store.ledger.Chained) (hloads : world.store.ledger.Loads)
    (hfits : json.Fits (.snapshot world.store.ledger.image))
    (hfile : world.disk = ⟨json.journal world.store.ledger [], [], none⟩)
    (hlen : world.store.len = (json.journal world.store.ledger []).length)
    (himage : ∀ image ∈ world.store.image, image = json.journal world.store.ledger []) :
    world.Holds json acked failed where
  chained := hchained
  loads := hloads
  journal := ⟨world.store.ledger, [], by rw [hfile], hloads, hfits, .nil, nil_suffix⟩
  renamed := by simp [hfile]
  pending := .inl (by rw [hfile])
  known _ _ := by
    rw [hfile]
    exact ⟨rfl, rfl, hlen, himage⟩

/-- A compaction keeps the ledger, and what holds of the disk. -/
theorem compact_holds (h : world.Holds json acked failed) (fault : Option Fault) :
    (compact json fault).Yields world
      (fun _ world' => world'.Holds json acked failed ∧ world'.store.ledger = world.store.ledger ∧
        world'.store.failed = false ∧ world'.store.fenced = false)
      (fun _ world' => world'.Holds json acked failed ∧
        world'.store.ledger = world.store.ledger) := by
  refine yields_bind (yields_get (yields_bind
    (yields_check (fun _ hfenced => ?_) fun _ _ => ⟨h, rfl⟩)))
  rw [ensure_eq_ok] at hfenced
  refine yields_bind (yields_check (fun frame hframe => ?_) fun _ _ => ⟨h, rfl⟩)
  obtain ⟨hfits, rfl⟩ := encodeFrame_eq_ok.1 hframe
  rw [journal_nil]
  refine yields_bind (yields_modify (yields_bind ?_))
  cases fault with
  | none =>
    refine yields_modify (yields_modify ⟨?_, rfl, rfl, hfenced⟩)
    refine holds_published h.chained h.loads hfits rfl rfl ?_
    simp
  | some fault =>
    -- The publication fails, after the rename or before it.
    by_cases heffective : fault.effective
    · rw [publish, if_pos heffective]
      refine yields_bind (yields_modify (yields_throw ⟨?_, rfl⟩))
      refine ⟨h.chained, h.loads, h.journal, ?_, h.pending, nofun⟩
      rintro _ ⟨⟩
      exact ⟨rfl, hfits⟩
    · rw [publish, if_neg heffective]
      exact ⟨⟨h.chained, h.loads, h.journal, h.renamed, h.pending, nofun⟩, rfl⟩

theorem heal_holds (h : world.Holds json acked failed) (fault : Option Fault) :
    (heal json fault).Yields world
      (fun _ world' => world'.Holds json acked failed ∧ world'.store.ledger = world.store.ledger ∧
        world'.store.failed = false ∧
        (world.store.fenced = false → world'.store.fenced = false))
      (fun _ world' => world'.Holds json acked failed ∧
        world'.store.ledger = world.store.ledger) := by
  refine yields_bind (yields_get ?_)
  by_cases hfailed : world.store.failed
  · rw [if_pos hfailed]
    exact (compact_holds h fault).imp
      (fun _ _ ⟨h₁, h₂, h₃, h₄⟩ => ⟨h₁, h₂, h₃, fun _ => h₄⟩) fun _ _ h => h
  · rw [if_neg hfailed]
    exact yields_pure ⟨h, rfl, by simpa using hfailed, id⟩

/-- Writing the frame of an edit: it is there, or a part of it may be. -/
theorem writeFrame_holds (h : world.Holds json acked failed) (hfailed : world.store.failed = false)
    (hfenced : world.store.fenced = false) (faults : WriteFaults) (frame : List Byte) :
    (writeFrame faults frame).Yields world
      (fun _ world' => world' = { world with disk := ⟨world.disk.file ++ frame, [], none⟩ })
      (fun _ world' => world' = world ∨
        world' = { world with disk := ⟨world.disk.file, frame, none⟩ }) := by
  obtain ⟨hpending, hrenamed, hlen, himage⟩ := h.known hfailed hfenced
  have hdisk : world.disk = ⟨world.disk.file, [], none⟩ := by
    rw [← hpending, ← hrenamed]
  have hpend : ({ world with disk := { world.disk with pending := frame } } : StoreWorld) =
      { world with disk := ⟨world.disk.file, frame, none⟩ } := by
    rw [← hrenamed]
  refine yields_bind (yields_get (yields_bind
    (yields_check (fun _ _ => ?_) fun _ _ => .inl rfl)))
  iterate 4 refine yields_bind (yields_check (fun _ _ => ?_) fun _ _ => .inl rfl)
  refine yields_bind (yields_modify ?_)
  rw [hpend]
  refine yields_bind (yields_check (fun _ _ => ?_) fun _ _ => .inr rfl)
  refine yields_bind (yields_check (fun _ _ => ?_) fun _ _ => .inr rfl)
  exact yields_modify rfl

/-- An edit that measures leads from a ledger that can be read back to another one. -/
theorem loads_of_apply (hchained : ledger.Chained) (hloads : ledger.Loads)
    (hmeasured : edit.Measured ledger) (h : WalLedger.apply edit ledger = .ok () ledger') :
    ledger'.Chained ∧ ledger'.Loads := by
  have haccepts := of_apply h
  have hchained' := hchained.of_accepts haccepts
  refine ⟨hchained', hchained'.loads_iff.2 ?_⟩
  exact boundaries_of_measured hchained.openMember_sealed
    (hchained.loads_iff.1 hloads) haccepts hmeasured

/-- An append: the edit is acknowledged and in the file, or it is not acknowledged. -/
theorem append_holds (h : world.Holds json acked failed) (healing : Option Fault)
    (faults : WriteFaults) (compaction : Option Fault) (edit : LedgerEdit)
    (hmeasured : edit.Measured world.store.ledger) :
    (append json healing faults compaction edit).Yields world
      (fun _ world' => world'.Holds json (acked ++ [edit]) [] ∧
        WalLedger.apply edit world.store.ledger = .ok () world'.store.ledger)
      (fun _ world' => world'.Holds json acked (failed ++ [edit]) ∧
        world'.store.ledger = world.store.ledger) := by
  have hweaken : ∀ {world' : StoreWorld}, world'.Holds json acked failed →
      world'.Holds json acked (failed ++ [edit]) := by
    intro world' h
    refine { h with pending := h.pending.imp_right ?_ }
    rintro ⟨e, he, hrest⟩
    exact ⟨e, mem_append_left _ he, hrest⟩
  refine yields_bind (yields_get (yields_bind
    (yields_check (fun _ hfenced => ?_) fun _ _ => ⟨hweaken h, rfl⟩)))
  rw [ensure_eq_ok] at hfenced
  refine yields_bind ((heal_holds h healing).imp ?_ fun _ _ ⟨h, hledger⟩ => ⟨hweaken h, hledger⟩)
  rintro _ world₁ ⟨h₁, hledger, hfailed, hfenced₁⟩
  rw [← hledger] at hmeasured ⊢
  refine yields_bind (yields_get (yields_bind
    (yields_check (fun next hnext => ?_) fun _ _ => ⟨hweaken h₁, rfl⟩)))
  have happly : apply edit world₁.store.ledger = .ok () next := by
    split at hnext
    · cases hnext
      assumption
    · cases hnext
  refine yields_bind (yields_check (fun frame hframe => ?_)
    fun _ _ => ⟨hweaken h₁, rfl⟩)
  obtain ⟨hfits, rfl⟩ := encodeFrame_eq_ok.1 hframe
  obtain ⟨hpending, hrenamed, hlen, himage⟩ := h₁.known hfailed (hfenced₁ hfenced)
  obtain ⟨base, edits, hfile, hbase, hbaseFits, hreplays, hsuffix⟩ := h₁.journal
  refine yields_bind (yields_attempt
    ((writeFrame_holds h₁ hfailed (hfenced₁ hfenced) faults _).imp ?_ ?_))
  · -- The frame has been synced: the edit is acknowledged.
    rintro _ _ rfl
    obtain ⟨hchained, hloads⟩ := loads_of_apply h₁.chained h₁.loads hmeasured happly
    refine yields_bind (yields_modify ?_)
    generalize hworld : ({
      store := { world₁.store with
        ledger := next
        image := world₁.store.image.map (· ++ frameBytes (json.toVec (.edit edit)))
        len := world₁.store.len + (frameBytes (json.toVec (.edit edit))).length
        edits := world₁.store.edits + 1 }
      disk := ⟨world₁.disk.file ++ frameBytes (json.toVec (.edit edit)), [], none⟩ } :
        StoreWorld) = world₂
    have h₂ : world₂.Holds json (acked ++ [edit]) [] ∧ world₂.store.ledger = next := by
      subst hworld
      refine ⟨⟨hchained, hloads, ?_, nofun, .inl rfl, fun _ _ => ?_⟩, rfl⟩
      · refine ⟨base, edits ++ [edit], ?_, hbase, hbaseFits, hreplays.concat happly hfits, ?_⟩
        · simp [hfile, journal, journalFrames, editFrame]
        · obtain ⟨before, rfl⟩ := hsuffix
          exact ⟨before, by simp⟩
      · refine ⟨rfl, rfl, by simp [hlen], fun image hmem => ?_⟩
        obtain ⟨image', himage', rfl⟩ := Option.map_eq_some_iff.1 hmem
        rw [himage image' himage']
    refine yields_bind (yields_get ?_)
    split_ifs
    · refine yields_bind (yields_attempt ((compact_holds h₂.1 compaction).imp ?_ ?_))
      · rintro _ world₃ ⟨h₃, hledger₃, -, -⟩
        exact yields_pure ⟨h₃, by rw [hledger₃, h₂.2, happly]⟩
      · rintro _ world₃ ⟨h₃, hledger₃⟩
        exact yields_pure ⟨h₃, by rw [hledger₃, h₂.2, happly]⟩
    · exact yields_pure ⟨h₂.1, by rw [h₂.2, happly]⟩
  · -- The write has failed: a part of the frame may be there.
    intro error world₂ hworld
    refine yields_bind (yields_modify (yields_throw ?_))
    have hholds : world₂.store = world₁.store ∧ world₂.disk.file = world₁.disk.file ∧
        world₂.disk.renamed = none ∧ (world₂.disk.pending = [] ∨
          world₂.disk.pending = json.editFrame edit) := by
      rcases hworld with rfl | rfl
      exacts [⟨rfl, rfl, hrenamed, .inl hpending⟩, ⟨rfl, rfl, rfl, .inr rfl⟩]
    obtain ⟨hstore, hfile₂, hrenamed₂, hpending₂⟩ := hholds
    rw [hstore]
    obtain ⟨hledger', hmarked⟩ := LedgerStore.of_afterFailure world₁.store error
    generalize world₁.store.afterFailure error = store' at hledger' hmarked ⊢
    refine ⟨⟨hledger' ▸ h₁.chained, hledger' ▸ h₁.loads,
      ⟨base, edits, hfile₂.trans hfile, hbase, hbaseFits, hledger' ▸ hreplays, hsuffix⟩, ?_, ?_,
      fun hfalse hfalse' => ?_⟩, hledger'⟩
    · simp [hrenamed₂]
    · refine hpending₂.imp_right fun hpending => ⟨edit, by simp, next, hpending, hfits, ?_⟩
      rw [hledger', happly]
    · rcases hmarked with h | h
      exacts [absurd (hfalse.symm.trans h) Bool.false_ne_true,
        absurd (hfalse'.symm.trans h) Bool.false_ne_true]

end StoreWorld

/-! ## Runs of calls -/

/-- A call of the store, and how the calls of the file system end that it makes. -/
inductive StoreCall
  | append (healing : Option Fault) (faults : WriteFaults) (compaction : Option Fault)
      (edit : LedgerEdit)
  | heal (fault : Option Fault)
  | compact (fault : Option Fault)

/-- A store, the edits it has acknowledged, and those that have failed since the last
    acknowledged one. -/
structure StoreHistory where
  world : StoreWorld
  acked : List LedgerEdit := []
  failed : List LedgerEdit := []

namespace StoreHistory

/-- One call. -/
def step (json : JsonCodec) (history : StoreHistory) : StoreCall → StoreHistory
  | .append healing faults compaction edit =>
    match StoreWorld.append json healing faults compaction edit history.world with
    | .ok _ world => ⟨world, history.acked ++ [edit], []⟩
    | .error _ world => ⟨world, history.acked, history.failed ++ [edit]⟩
  | .heal fault => { history with world := (StoreWorld.heal json fault).after history.world }
  | .compact fault =>
    { history with world := (StoreWorld.compact json fault).after history.world }

/-- The calls one after the other. -/
def calls (json : JsonCodec) (history : StoreHistory) (calls : List StoreCall) : StoreHistory :=
  calls.foldl (step json) history

/-- The edit of every append measures in the ledger that it is for. -/
def Measures (json : JsonCodec) : StoreHistory → List StoreCall → Prop
  | _, [] => True
  | history, call :: calls =>
    (match call with
      | .append _ _ _ edit => edit.Measured history.world.store.ledger
      | _ => True) ∧ Measures json (history.step json call) calls

/-- What holds of a history that starts with `ledger`. -/
structure Holds (json : JsonCodec) (ledger : WalLedger) (history : StoreHistory) : Prop where
  world : history.world.Holds json history.acked history.failed
  ledger_eq : history.world.store.ledger = ledger.tryAll history.acked

variable {json : JsonCodec} {ledger : WalLedger} {history : StoreHistory}

theorem Holds.step (h : history.Holds json ledger) {call : StoreCall} {rest : List StoreCall}
    (hmeasures : history.Measures json (call :: rest)) : (history.step json call).Holds json ledger := by
  cases call with
  | append healing faults compaction edit =>
    have happend := StoreWorld.append_holds h.world healing faults compaction edit hmeasures.1
    rw [Update.Yields] at happend
    rw [StoreHistory.step]
    split at happend <;> rename_i heq
    · rw [heq]
      refine ⟨happend.1, ?_⟩
      rw [tryAll, runAll_append]
      refine (@Update.after_of_ok _ _ _ _ _ _ () ?_).symm
      rw [← tryAll, ← h.ledger_eq]
      exact happend.2
    · rw [heq]
      exact ⟨happend.1, happend.2.trans h.ledger_eq⟩
  | heal fault =>
    refine Update.Yields.after (P := fun world =>
      StoreHistory.Holds json ledger { history with world }) ?_
    exact (StoreWorld.heal_holds h.world fault).imp
      (fun _ _ h' => ⟨h'.1, h'.2.1.trans h.ledger_eq⟩)
      fun _ _ h' => ⟨h'.1, h'.2.trans h.ledger_eq⟩
  | compact fault =>
    refine Update.Yields.after (P := fun world =>
      StoreHistory.Holds json ledger { history with world }) ?_
    exact (StoreWorld.compact_holds h.world fault).imp
      (fun _ _ h' => ⟨h'.1, h'.2.1.trans h.ledger_eq⟩)
      fun _ _ h' => ⟨h'.1, h'.2.trans h.ledger_eq⟩

theorem Holds.calls (h : history.Holds json ledger) {calls : List StoreCall}
    (hmeasures : history.Measures json calls) : (history.calls json calls).Holds json ledger := by
  induction calls generalizing history with
  | nil => exact h
  | cons call calls ih => exact ih (h.step hmeasures) hmeasures.2

end StoreHistory

/-! ## Crashes -/

instance : Countable (Vector Byte 16) :=
  Function.Injective.countable fun _ _ h => Vector.toList_inj.1 h

deriving instance Countable for ChainLink, OpenFacts, SealedFacts, Member, LedgerEdit, LedgerImage,
  FrameImage

end Midge
