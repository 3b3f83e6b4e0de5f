import Midge.Cloud.SstNames

/-!
# What a process does with names

A number that has been given to an output lies in a block that a selected capture covers, and
belongs to nothing else; the numbers of a family are handed out in order, from the counters that
the process has taken over on (`NameState.Inv`). Recovery keeps this, and so does every turn of
the event loop, whether it fails or not (`keeps_run`, `keeps_finishMetadataMirror`).
-/

namespace Midge

open List Update Function NamedPlan Update.Yields SstCounters

/-! ## The order of the counters -/

namespace SstCounters

/-- The counters of every family have not gone back. -/
def Le (a b : SstCounters) : Prop := ∀ cfId, a.next cfId ≤ b.next cfId

variable {a b c : SstCounters} {cfId nextSeq : ℕ}

theorem Le.refl (a : SstCounters) : a.Le a := fun _ => le_rfl

theorem Le.trans (hab : a.Le b) (hbc : b.Le c) : a.Le c := fun cfId => (hab cfId).trans (hbc cfId)

theorem next_update (cfId' nextSeq : ℕ) :
    next (update a cfId (some nextSeq)) cfId' =
      if cfId' = cfId then nextSeq else a.next cfId' := by
  simp only [next, update_apply]
  split_ifs <;> rfl

theorem next_bump (hpos : 1 ≤ nextSeq) (cfId' : ℕ) :
    (a.bump cfId nextSeq).next cfId' =
      if cfId' = cfId then max (a.next cfId) nextSeq else a.next cfId' := by
  rw [bump, next_update]
  split_ifs with h
  · cases ha : a cfId with
    | none => simp [next, ha, hpos]
    | some v => simp [next, ha]
  · rfl

theorem le_bump (hpos : 1 ≤ nextSeq) : a.Le (a.bump cfId nextSeq) := by
  intro cfId'
  rw [next_bump hpos]
  split_ifs with h
  · exact h ▸ le_max_left ..
  · exact le_rfl

theorem next_merge (ha : 1 ≤ a.next cfId) (hb : 1 ≤ b.next cfId) :
    (a.merge b).next cfId = max (a.next cfId) (b.next cfId) := by
  cases hca : a cfId with
  | none =>
    cases hcb : b cfId with
    | none => simp [next, merge, hca, hcb]
    | some v => simpa [next, merge, hca, hcb] using hb
  | some u =>
    cases hcb : b cfId with
    | none => simpa [next, merge, hca, hcb] using ha
    | some v => simp [next, merge, hca, hcb]

end SstCounters

/-! ## The invariant of a process -/

/-- A mirror reserves the numbers of the family below the bound. -/
def MirrorContinuation.Reserves (cfId nextSeq : ℕ) : MirrorContinuation → Prop
  | .sstReservation cfId' nextSeq' => cfId' = cfId ∧ nextSeq' = nextSeq
  | .recovery cfId' _ nextSeq' => cfId' = cfId ∧ nextSeq' = nextSeq
  | .other => False

/-- The counters grow, from those that the process has taken over. -/
structure FilesInv (base : SstCounters) (epoch nextCut : ℕ) (manifest disk : SstCounters)
    (cuts : List NameCut) (mirror : Option MirrorJob) : Prop where
  positive : ∀ cfId, 1 ≤ base.next cfId
  loaded : base.Le manifest
  written : manifest.Le disk
  captured : ∀ cut ∈ cuts, cut.epoch = epoch ∧ cut.ordinal < nextCut ∧ base.Le cut.counters ∧
    cut.counters.Le disk
  ordered : ∀ cut ∈ cuts, ∀ cut' ∈ cuts, cut.ordinal ≤ cut'.ordinal →
    cut.counters.Le cut'.counters
  reserving : ∀ job, mirror = some job → ∃ cut ∈ cuts, cut.ordinal = job.ordinal ∧
    ∀ cfId nextSeq, job.continuation.Reserves cfId nextSeq → nextSeq ≤ cut.counters.next cfId

/-- The numbers of a family are handed out in order. -/
structure NumbersInv (base manifest : SstCounters) (cursor : ℕ → Option ℕ)
    (handed : List (ℕ × ℕ)) : Prop where
  begun : ∀ cfId next, cursor cfId = some next → base.next cfId ≤ next
  bounded : ∀ name ∈ handed, base.next name.1 ≤ name.2 ∧
    name.2 < (cursor name.1).getD (manifest.next name.1)
  increasing : handed.Pairwise fun a b => a.1 = b.1 → a.2 < b.2

/-- The number that a plan has. -/
def NamedPlan.name (plan : NamedPlan) : ℕ × ℕ := (plan.cfId, plan.outputSeq)

/-- Every number that has been given to an output has been reserved, and those that have been
    handed out belong to one output, plan or caller (`owned`) at most. -/
structure AdmissionsInv (Selected : ℕ → ℕ → Prop) (owned : List (ℕ × ℕ))
    (reservedThrough : ℕ → Option ℕ) (handed admitted : List (ℕ × ℕ)) (pending : List NamedPlan) :
    Prop where
  reserved : ∀ cfId bound, reservedThrough cfId = some bound → Selected cfId bound
  covered : ∀ name ∈ admitted, ∃ bound, name.2 < bound ∧ Selected name.1 bound
  known : ∀ name ∈ owned ++ (pending.map NamedPlan.name ++ admitted), name ∈ handed
  nodup : (owned ++ (pending.map name ++ admitted)).Nodup

/-- The blocks that recovery has left, and the one it waits for. -/
structure RecoveryInv (base manifest : SstCounters) (Selected : ℕ → ℕ → Prop)
    (cursor : ℕ → Option ℕ) (handed : List (ℕ × ℕ)) (ranges : ℕ → ℕ × ℕ)
    (mirror : Option MirrorJob) : Prop where
  fresh : ∀ cfId, cursor cfId = none
  blocks : ∀ cfId, (ranges cfId).1 < (ranges cfId).2 →
    base.next cfId ≤ (ranges cfId).1 ∧ (ranges cfId).2 ≤ manifest.next cfId ∧
      Selected cfId (ranges cfId).2 ∧ ∀ name ∈ handed, name.1 = cfId → name.2 < (ranges cfId).1
  awaited : ∀ job, mirror = some job → ∃ cfId first nextSeq,
    job.continuation = .recovery cfId first nextSeq ∧ base.next cfId ≤ first ∧
      nextSeq ≤ manifest.next cfId ∧ ∀ name ∈ handed, name.1 = cfId → name.2 < first

/-- What holds of a process that has taken over the counters `base`. The captures that have been
    selected reserve what `Selected` has. -/
structure NameState.Inv (base : SstCounters) (Selected : ℕ → ℕ → Prop) (owned : List (ℕ × ℕ))
    (s : NameState) : Prop where
  hybrid : s.hybrid = true
  files : FilesInv base s.epoch s.nextCut s.manifest s.disk s.cuts s.mirror
  numbers : NumbersInv base s.manifest s.cursor s.handed
  admissions : AdmissionsInv Selected owned s.reservedThrough s.handed s.admitted
    s.pendingCompactions
  recovery : s.phase = .recovering →
    RecoveryInv base s.manifest Selected s.cursor s.handed s.ranges s.mirror

/-! ## Steps of the parts -/

variable {continuation : MirrorContinuation}

section Parts

variable {base manifest manifest' disk disk' : SstCounters} {Selected : ℕ → ℕ → Prop}
  {epoch nextCut cfId name : ℕ} {cuts : List NameCut} {mirror : Option MirrorJob}
  {cursor reservedThrough : ℕ → Option ℕ} {handed admitted owned : List (ℕ × ℕ)}
  {pending : List NamedPlan} {plan : NamedPlan}

section

variable (h : NumbersInv base manifest cursor handed)

include h

/-- The cursor of a family may be put where the numbers go on. -/
theorem NumbersInv.set_cursor (hbase : base.Le manifest) (cfId : ℕ) :
    NumbersInv base manifest
      (update cursor cfId (some ((cursor cfId).getD (manifest.next cfId)))) handed where
  begun cfId' next hnext := by
    rw [update_apply] at hnext
    split_ifs at hnext with hcf
    · cases hnext
      subst hcf
      cases hcursor : cursor cfId' with
      | none => exact hbase cfId'
      | some next => exact h.begun cfId' next hcursor
    · exact h.begun cfId' next hnext
  bounded name hname := by
    obtain ⟨hle, hlt⟩ := h.bounded name hname
    refine ⟨hle, ?_⟩
    rw [update_apply]
    split_ifs with hcf
    · exact hcf ▸ hlt
    · exact hlt
  increasing := h.increasing

/-- A number is handed out. -/
theorem NumbersInv.consume (hcursor : cursor cfId = some name) :
    NumbersInv base manifest (update cursor cfId (some (name + 1)))
      (handed ++ [(cfId, name)]) where
  begun cfId' next hnext := by
    rw [update_apply] at hnext
    split_ifs at hnext with hcf
    · cases hnext
      have := h.begun cfId name hcursor
      subst hcf
      omega
    · exact h.begun cfId' next hnext
  bounded name' hname := by
    rw [update_apply]
    rcases mem_append.1 hname with hname | hname
    · obtain ⟨hle, hlt⟩ := h.bounded name' hname
      refine ⟨hle, ?_⟩
      split_ifs with hcf
      · rw [hcf, hcursor] at hlt
        simp only [Option.getD_some] at hlt ⊢
        omega
      · exact hlt
    · obtain rfl := mem_singleton.1 hname
      simpa using h.begun cfId name hcursor
  increasing := by
    refine pairwise_append.2 ⟨h.increasing, pairwise_singleton .., ?_⟩
    intro name' hname' _ hlast hcf
    obtain rfl := mem_singleton.1 hlast
    have hlt := (h.bounded name' hname').2
    rwa [show name'.1 = cfId from hcf, hcursor] at hlt

theorem NumbersInv.raise (hle : manifest.Le manifest') :
    NumbersInv base manifest' cursor handed where
  begun := h.begun
  bounded name hname := by
    obtain ⟨hbase, hlt⟩ := h.bounded name hname
    refine ⟨hbase, ?_⟩
    cases hcursor : cursor name.1 with
    | none =>
      rw [hcursor] at hlt
      exact lt_of_lt_of_le hlt (hle name.1)
    | some next => rwa [hcursor] at hlt
  increasing := h.increasing

end

section

variable (h : FilesInv base epoch nextCut manifest disk cuts mirror)

include h

theorem FilesInv.raise_manifest (hle : manifest.Le manifest') (hdisk : manifest'.Le disk) :
    FilesInv base epoch nextCut manifest' disk cuts mirror :=
  { h with loaded := h.loaded.trans hle, written := hdisk }

theorem FilesInv.raise_disk (hle : disk.Le disk') :
    FilesInv base epoch nextCut manifest disk' cuts mirror where
  __ := h
  written := h.written.trans hle
  captured cut hcut := by
    obtain ⟨hepoch, hordinal, hbase, hdisk⟩ := h.captured cut hcut
    exact ⟨hepoch, hordinal, hbase, hdisk.trans hle⟩

/-- The files are captured. -/
theorem FilesInv.capture :
    FilesInv base epoch (nextCut + 1) manifest disk (cuts ++ [⟨epoch, nextCut, disk⟩]) mirror where
  __ := h
  captured := by
    refine forall_mem_append.2 ⟨fun cut hcut => ?_, forall_mem_singleton.2
      ⟨rfl, Nat.lt_succ_self _, h.loaded.trans h.written, .refl _⟩⟩
    obtain ⟨hepoch, hordinal, hle⟩ := h.captured cut hcut
    exact ⟨hepoch, by omega, hle⟩
  ordered cut hcut cut' hcut' hle := by
    rcases mem_append.1 hcut' with hcut' | hcut'
    · rcases mem_append.1 hcut with hcut | hcut
      · exact h.ordered cut hcut cut' hcut' hle
      · obtain rfl := mem_singleton.1 hcut
        have := (h.captured cut' hcut').2.1
        dsimp only at hle
        omega
    · obtain rfl := mem_singleton.1 hcut'
      rcases mem_append.1 hcut with hcut | hcut
      · exact (h.captured cut hcut).2.2.2
      · obtain rfl := mem_singleton.1 hcut
        exact .refl _
  reserving job hjob := by
    obtain ⟨cut, hcut, hreserves⟩ := h.reserving job hjob
    exact ⟨cut, mem_append_left _ hcut, hreserves⟩

/-- A mirror of the files begins. -/
theorem FilesInv.start
    (hreserves : ∀ cfId nextSeq, continuation.Reserves cfId nextSeq → nextSeq ≤ disk.next cfId) :
    FilesInv base epoch (nextCut + 1) manifest disk (cuts ++ [⟨epoch, nextCut, disk⟩])
      (some ⟨nextCut, continuation⟩) :=
  { h.capture with
    reserving := by
      rintro _ ⟨⟩
      exact ⟨_, mem_append_right _ (mem_singleton.2 rfl), rfl, hreserves⟩ }

theorem FilesInv.stop :
    FilesInv base epoch nextCut manifest disk cuts none :=
  { h with reserving := fun _ hjob => nomatch hjob }

end

/-- The numbers may belong to another than before. -/
theorem AdmissionsInv.of_perm {owned' : List (ℕ × ℕ)} {pending' : List NamedPlan}
    (h : AdmissionsInv Selected owned reservedThrough handed admitted pending)
    (hperm : (owned' ++ (pending'.map NamedPlan.name ++ admitted)).Perm
      (owned ++ (pending.map NamedPlan.name ++ admitted))) :
    AdmissionsInv Selected owned' reservedThrough handed admitted pending' :=
  ⟨h.reserved, h.covered, fun name hname => h.known name (hperm.subset hname),
    hperm.nodup_iff.2 h.nodup⟩

theorem AdmissionsInv.drop (h : AdmissionsInv Selected ((cfId, name) :: owned) reservedThrough
    handed admitted pending) :
    AdmissionsInv Selected owned reservedThrough handed admitted pending :=
  ⟨h.reserved, h.covered, fun name hname => h.known name (mem_cons_of_mem _ hname),
    (nodup_cons.1 h.nodup).2⟩

/-- The number that has been handed out belongs to the caller. -/
theorem AdmissionsInv.consume (h : AdmissionsInv Selected owned reservedThrough handed admitted
    pending) (hnew : (cfId, name) ∉ handed) :
    AdmissionsInv Selected ((cfId, name) :: owned) reservedThrough (handed ++ [(cfId, name)])
      admitted pending where
  __ := h
  known := forall_mem_cons.2 ⟨mem_append_right _ (mem_singleton.2 rfl),
    fun name' hname => mem_append_left _ (h.known name' hname)⟩
  nodup := nodup_cons.2 ⟨fun hname => hnew (h.known _ hname), h.nodup⟩

/-- A plan waits with its number. -/
theorem AdmissionsInv.push (h : AdmissionsInv Selected (plan.name :: owned) reservedThrough handed
    admitted pending) :
    AdmissionsInv Selected owned reservedThrough handed admitted (pending ++ [plan]) := by
  refine h.of_perm (perm_iff_count.2 fun a => ?_)
  simp only [map_append, map_cons, map_nil, cons_append, count_append, count_cons, count_nil]
  omega

/-- A number is given to an output. -/
theorem AdmissionsInv.give (h : AdmissionsInv Selected ((cfId, name) :: owned) reservedThrough
    handed admitted pending) {bound : ℕ} (hlt : name < bound) (hselected : Selected cfId bound) :
    AdmissionsInv Selected owned reservedThrough handed (admitted ++ [(cfId, name)]) pending := by
  have hperm : (owned ++ (pending.map NamedPlan.name ++ (admitted ++ [(cfId, name)]))).Perm
      ((cfId, name) :: owned ++ (pending.map NamedPlan.name ++ admitted)) := by
    rw [perm_iff_count]
    intro a
    simp only [cons_append, count_append, count_cons, count_nil]
    omega
  exact ⟨h.reserved,
    forall_mem_append.2 ⟨h.covered, forall_mem_singleton.2 ⟨bound, hlt, hselected⟩⟩,
    fun name hname => h.known name (hperm.subset hname), hperm.nodup_iff.2 h.nodup⟩

/-- The plans that wait are taken. -/
theorem AdmissionsInv.take (h : AdmissionsInv Selected [] reservedThrough handed admitted
    pending) :
    AdmissionsInv Selected (pending.map NamedPlan.name) reservedThrough handed admitted [] :=
  h.of_perm (by simp)

/-- One of the plans that wait is taken. -/
theorem AdmissionsInv.pop (h : AdmissionsInv Selected owned reservedThrough handed admitted
    pending) {position : ℕ} (hplan : pending[position]? = some plan) :
    AdmissionsInv Selected (plan.name :: owned) reservedThrough handed admitted
      (pending.eraseIdx position) := by
  refine h.of_perm ?_
  obtain ⟨hlt, rfl⟩ := List.getElem?_eq_some_iff.1 hplan
  have hpending := (getElem_cons_eraseIdx_perm hlt).map NamedPlan.name
  rw [map_cons] at hpending
  rw [← append_assoc, ← append_assoc, cons_append]
  exact (perm_middle.symm.trans (hpending.append_left owned)).append_right admitted

/-- A reservation has been selected. -/
theorem AdmissionsInv.reserve (h : AdmissionsInv Selected owned reservedThrough handed admitted
    pending) {nextSeq : ℕ} (hselected : Selected cfId nextSeq) :
    AdmissionsInv Selected owned (Function.update reservedThrough cfId
      (some (max ((reservedThrough cfId).getD nextSeq) nextSeq))) handed admitted pending :=
  { h with
    reserved := by
      intro cfId' bound hbound
      rw [Function.update_apply] at hbound
      split_ifs at hbound with hcf
      · cases hbound
        subst hcf
        rcases max_cases ((reservedThrough cfId').getD nextSeq) nextSeq with ⟨heq, -⟩ | ⟨heq, -⟩
        · rw [heq]
          cases hold : reservedThrough cfId' with
          | none => exact hselected
          | some old => exact h.reserved cfId' old hold
        · rwa [heq]
      · exact h.reserved cfId' bound hbound }

end Parts

/-! ## Turns -/

/-- The process runs and has gone on, and its captures are kept. -/
structure NameState.Goes (base : SstCounters) (Selected : ℕ → ℕ → Prop) (owned : List (ℕ × ℕ))
    (s s₀ : NameState) : Prop where
  inv : s.Inv base Selected owned
  epoch : s.epoch = s₀.epoch
  phase : s.phase = .running
  cuts : s₀.cuts ⊆ s.cuts

/-- From here on the computation reaches `Q`, or it fails and the process can go on. -/
def Keeps {α : Type} (base : SstCounters) (Selected : ℕ → ℕ → Prop) (owned : List (ℕ × ℕ))
    (s₀ : NameState) (Q : α → NameState → Prop) (x : NameM α) (s : NameState) : Prop :=
  x.Yields s Q fun _ s' => s'.Goes base Selected owned s₀

/-- The process can go on, whether the computation fails or not. -/
abbrev Stays {α : Type} (base : SstCounters) (Selected : ℕ → ℕ → Prop) (owned : List (ℕ × ℕ))
    (s₀ : NameState) (x : NameM α) (s : NameState) : Prop :=
  Keeps base Selected owned s₀ (fun _ s' => s'.Goes base Selected owned s₀) x s

variable {result : Except MidgeError Unit} {calls : ReservationCalls} {canResume : NamedPlan → Bool}

section Turns

variable {base : SstCounters} {Selected : ℕ → ℕ → Prop} {owned owned' : List (ℕ × ℕ)}
  {s₀ s s' : NameState} {cfId name nextSeq : ℕ} {plan : NamedPlan} {α β : Type}
  {Q : α → NameState → Prop} {R : β → NameState → Prop}

/-- A process that runs has nothing left of recovery. -/
theorem NameState.Goes.of_parts (hs : s.Goes base Selected owned s₀)
    (hsame : (s'.hybrid, s'.epoch, s'.phase) = (s.hybrid, s.epoch, s.phase))
    (hcuts : s.cuts ⊆ s'.cuts)
    (hfiles : FilesInv base s'.epoch s'.nextCut s'.manifest s'.disk s'.cuts s'.mirror)
    (hnumbers : NumbersInv base s'.manifest s'.cursor s'.handed)
    (hadmissions : AdmissionsInv Selected owned' s'.reservedThrough s'.handed s'.admitted
      s'.pendingCompactions) : s'.Goes base Selected owned' s₀ := by
  simp only [Prod.mk.injEq] at hsame
  obtain ⟨hhybrid, hepoch, hphase⟩ := hsame
  have hrunning : s'.phase = .running := hphase.trans hs.phase
  refine ⟨⟨hhybrid.trans hs.inv.hybrid, hfiles, hnumbers, hadmissions, fun h => ?_⟩,
    hepoch.trans hs.epoch, hrunning, fun _ h => hcuts (hs.cuts h)⟩
  rw [hrunning] at h
  cases h

/-- What the names do not depend on may change. -/
theorem NameState.Goes.of_eq (hs : s.Goes base Selected owned s₀)
    (h : { s' with
      flushes := s.flushes
      prefetchRetryAt := s.prefetchRetryAt
      reloadRequired := s.reloadRequired } = s) : s'.Goes base Selected owned s₀ := by
  rw [← h] at hs
  exact ⟨{ hs.inv with }, hs.epoch, hs.phase, hs.cuts⟩

theorem NameState.Goes.drop (hs : s.Goes base Selected ((cfId, name) :: owned) s₀) :
    s.Goes base Selected owned s₀ :=
  hs.of_parts rfl (Subset.refl _) hs.inv.files hs.inv.numbers
    hs.inv.admissions.drop

theorem Keeps.bind {x : NameM α} {f : α → NameM β} (hx : Keeps base Selected owned s₀ Q x s)
    (hf : ∀ a s', Q a s' → Keeps base Selected owned s₀ R (f a) s') :
    Keeps base Selected owned s₀ R (x >>= f) s :=
  yields_bind (Update.Yields.imp hx hf fun _ _ h => h)

theorem Keeps.imp {R : α → NameState → Prop} {x : NameM α}
    (hx : Keeps base Selected owned s₀ Q x s) (himp : ∀ a s', Q a s' → R a s') :
    Keeps base Selected owned s₀ R x s := Update.Yields.imp hx himp fun _ _ h => h

theorem Keeps.drop {x : NameM α} (hx : Keeps base Selected ((cfId, name) :: owned) s₀ Q x s) :
    Keeps base Selected owned s₀ Q x s := Update.Yields.imp hx (fun _ _ h => h) fun _ _ h => h.drop

theorem keeps_check {x : Except MidgeError α} (hs : s.Goes base Selected owned s₀)
    (hQ : ∀ a, x = .ok a → Q a s) : Keeps base Selected owned s₀ Q (Update.check x) s :=
  yields_check hQ fun _ _ => hs

/-- Check, and go on. -/
theorem keeps_check_bind {x : Except MidgeError α} {f : α → NameM β}
    (hs : s.Goes base Selected owned s₀)
    (hf : ∀ a, x = .ok a → Keeps base Selected owned s₀ R (f a) s) :
    Keeps base Selected owned s₀ R (Update.check x >>= f) s :=
  Keeps.bind (Q := fun a s' => s' = s ∧ x = .ok a) (keeps_check hs fun a ha => ⟨rfl, ha⟩)
    fun a s' h => by
      obtain ⟨rfl, ha⟩ := h
      exact hf a ha

theorem keeps_get_bind {f : NameState → NameM β}
    (hf : Keeps base Selected owned s₀ R (f s) s) :
    Keeps base Selected owned s₀ R (get >>= f) s := hf

theorem keeps_modify {Q : PUnit → NameState → Prop} {g : NameState → NameState} (hQ : Q ⟨⟩ (g s)) :
    Keeps base Selected owned s₀ Q (modify g) s := Update.yields_modify hQ

theorem keeps_modify_bind {g : NameState → NameState} {f : PUnit → NameM β}
    (hf : Keeps base Selected owned s₀ R (f ⟨⟩) (g s)) :
    Keeps base Selected owned s₀ R (modify g >>= f) s := hf

theorem keeps_pure {a : α} (hQ : Q a s) : Keeps base Selected owned s₀ Q (pure a) s := hQ

theorem keeps_throw {error : MidgeError} (hs : s.Goes base Selected owned s₀) :
    Keeps base Selected owned s₀ Q (throw error) s := hs

/-- Go on, whether it fails or not. -/
theorem keeps_attempt_bind {x : NameM α} {f : Except MidgeError α → NameM β}
    (hx : Stays base Selected owned s₀ x s)
    (hf : ∀ result s', s'.Goes base Selected owned s₀ →
      Keeps base Selected owned s₀ R (f result) s') :
    Keeps base Selected owned s₀ R (Update.attempt x >>= f) s :=
  yields_bind (yields_attempt
    (Update.Yields.imp hx (fun _ s' h => hf _ s' h) fun _ s' h => hf _ s' h))

theorem sum_of_checkedAdd {a b sum : ℕ} {error : MidgeError}
    (h : (checkedAdd a b).elim (Except.error error) .ok = .ok sum) : sum = a + b := by
  unfold checkedAdd at h
  split_ifs at h
  · cases h
    rfl
  · cases h

/-! ### The cursor -/

variable (hs : s.Goes base Selected owned s₀)

include hs

theorem keeps_nextSstName :
    Keeps base Selected owned s₀ (fun next s' => s'.Goes base Selected owned s₀ ∧
      s'.cursor cfId = some next ∧ s'.reservedThrough = s.reservedThrough) (nextSstName cfId) s := by
  refine keeps_get_bind ?_
  cases hcursor : s.cursor cfId with
  | some next => exact keeps_pure ⟨hs, hcursor, rfl⟩
  | none =>
    refine keeps_check_bind hs fun next hnext => ?_
    rw [hs.inv.hybrid] at hnext
    cases hnext
    refine keeps_modify_bind (keeps_pure ⟨?_, Function.update_self .., rfl⟩)
    have hnumbers := hs.inv.numbers.set_cursor hs.inv.files.loaded cfId
    rw [hcursor] at hnumbers
    exact hs.of_parts rfl (Subset.refl _) hs.inv.files hnumbers
      hs.inv.admissions

/-- The number belongs to the caller. -/
theorem keeps_consumeSstName :
    Keeps base Selected owned s₀ (fun _ s' => s'.Goes base Selected ((cfId, name) :: owned) s₀ ∧
      s'.reservedThrough = s.reservedThrough) (consumeSstName cfId name) s := by
  refine (keeps_nextSstName hs).bind ?_
  rintro next s₁ ⟨hs₁, hcursor, hreserved⟩
  refine keeps_check_bind hs₁ fun _ heq => ?_
  obtain rfl := ensure_eq_ok.1 heq
  refine keeps_check_bind hs₁ fun following hfollowing => keeps_modify ⟨?_, hreserved⟩
  obtain rfl := sum_of_checkedAdd hfollowing
  have hnew : (cfId, next) ∉ s₁.handed := fun hmem => by
    have hlt := (hs₁.inv.numbers.bounded _ hmem).2
    rw [hcursor] at hlt
    exact lt_irrefl _ hlt
  have hmanifest : (if s₁.hybrid then s₁.manifest else s₁.manifest.bump cfId (next + 1)) =
      s₁.manifest := by rw [hs₁.inv.hybrid]; rfl
  refine hs₁.of_parts rfl (Subset.refl _) ?_ ?_
    (hs₁.inv.admissions.consume hnew)
  · exact hmanifest.symm ▸ hs₁.inv.files
  · exact hmanifest.symm ▸ hs₁.inv.numbers.consume hcursor

theorem keeps_allocateCompactionSstName :
    Keeps base Selected owned s₀
      (fun name s' => s'.Goes base Selected ((cfId, name) :: owned) s₀)
      (allocateCompactionSstName cfId) s := by
  refine (keeps_nextSstName hs).bind ?_
  rintro name s₁ ⟨hs₁, -⟩
  refine (keeps_consumeSstName hs₁).bind ?_
  rintro _ s₂ ⟨hs₂, -⟩
  exact keeps_pure hs₂

/-! ### Reservations -/

theorem keeps_retryMetadataReload {fault : Option MidgeError} :
    Keeps base Selected owned s₀ (fun _ s' => s'.Goes base Selected owned s₀ ∧
      s'.cursor = s.cursor) (retryMetadataReload fault) s := by
  refine keeps_get_bind ?_
  split_ifs
  · refine keeps_check_bind hs fun _ _ => keeps_modify ⟨?_, rfl⟩
    have hfiles := hs.inv.files
    exact hs.of_parts rfl (Subset.refl _)
      (hfiles.raise_manifest hfiles.written (.refl _)) (hs.inv.numbers.raise hfiles.written)
      hs.inv.admissions
  · exact keeps_pure ⟨hs, rfl⟩

theorem keeps_appendBump {append : JournalAppend}
    (hpos : 1 ≤ nextSeq) :
    Keeps base Selected owned s₀ (fun _ s' => s'.Goes base Selected owned s₀ ∧
      s'.cursor = s.cursor ∧ s'.manifest = s.manifest ∧ s'.reloadRequired = s.reloadRequired ∧
        s'.disk = s.disk.bump cfId nextSeq) (appendBump append cfId nextSeq) s := by
  have hbump : ({ s with disk := s.disk.bump cfId nextSeq } : NameState).Goes base Selected owned
      s₀ := hs.of_parts rfl (Subset.refl _)
    (hs.inv.files.raise_disk (SstCounters.le_bump hpos)) hs.inv.numbers hs.inv.admissions
  unfold appendBump
  cases append.fault with
  | none => exact keeps_modify ⟨hbump, rfl, rfl, rfl, rfl⟩
  | some error =>
    refine keeps_modify_bind (keeps_throw ?_)
    cases append.kept with
    | true => exact hbump
    | false => exact hs

theorem keeps_captureControlCut :
    Stays base Selected owned s₀
      captureControlCut s :=
  keeps_modify (hs.of_parts rfl (subset_append_left ..)
    hs.inv.files.capture hs.inv.numbers hs.inv.admissions)

theorem keeps_startMetadataMirror {fault : Option MidgeError}
    (hreserves : ∀ cfId nextSeq, continuation.Reserves cfId nextSeq → nextSeq ≤ s.disk.next cfId) :
    Keeps base Selected owned s₀ (fun pending s' => s'.Goes base Selected owned s₀ ∧
      s'.cursor = s.cursor ∧ pending = true) (startMetadataMirror fault continuation) s := by
  refine keeps_get_bind ?_
  rw [if_pos hs.inv.hybrid]
  refine keeps_check_bind hs fun _ _ => keeps_check_bind hs fun _ _ => ?_
  refine keeps_modify_bind (keeps_modify_bind (keeps_pure ⟨?_, rfl, rfl⟩))
  exact hs.of_parts rfl (subset_append_left ..)
    (hs.inv.files.start hreserves) hs.inv.numbers hs.inv.admissions

/-- The counter of a family is set to a number that the files have. -/
theorem NameState.Goes.set_manifest
    (hle : s.manifest.next cfId ≤ nextSeq) (hdisk : nextSeq ≤ s.disk.next cfId) :
    ({ s with manifest := Function.update s.manifest cfId (some nextSeq) } : NameState).Goes base
      Selected owned s₀ := by
  have hraise : s.manifest.Le (update s.manifest cfId (some nextSeq)) := fun cfId' => by
    rw [next_update]
    split_ifs with hcf
    · exact hcf ▸ hle
    · exact le_rfl
  refine hs.of_parts rfl (Subset.refl _)
    (hs.inv.files.raise_manifest hraise fun cfId' => ?_) (hs.inv.numbers.raise hraise)
    hs.inv.admissions
  rw [SstCounters.next_update]
  split_ifs with hcf
  · exact hcf ▸ hdisk
  · exact hs.inv.files.written cfId'

/-- If there is nothing to wait for, the number is reserved. -/
theorem keeps_beginSstNameReservation {sstSeq : ℕ} :
    Keeps base Selected owned s₀ (fun pending s' => s'.Goes base Selected owned s₀ ∧
      s'.cursor = s.cursor ∧ (pending = false → ∃ bound, sstSeq < bound ∧ Selected cfId bound))
      (beginSstNameReservation calls cfId sstSeq) s := by
  refine keeps_check_bind hs fun _ _ => keeps_get_bind ?_
  split_ifs with hlt
  · refine keeps_pure ⟨hs, rfl, fun _ => ?_⟩
    cases hbound : s.reservedThrough cfId with
    | none => simp [hbound] at hlt
    | some bound =>
      rw [hbound] at hlt
      exact ⟨bound, hlt, hs.inv.admissions.reserved cfId bound hbound⟩
  · refine (keeps_retryMetadataReload hs).bind ?_
    rintro _ s₁ ⟨hs₁, hcursor₁⟩
    refine keeps_check_bind hs₁ fun _ _ => keeps_get_bind ?_
    refine keeps_check_bind hs₁ fun stop hstop => ?_
    have hpos : 1 ≤ max stop (s₁.manifest.next cfId) := le_max_of_le_right
      ((hs₁.inv.files.positive cfId).trans (hs₁.inv.files.loaded cfId))
    refine (keeps_appendBump hs₁ hpos).bind ?_
    rintro _ s₂ ⟨hs₂, hcursor₂, hmanifest₂, -, hdisk₂⟩
    have hnext : max stop (s₁.manifest.next cfId) ≤ s₂.disk.next cfId := by
      rw [hdisk₂, SstCounters.next_bump hpos, if_pos rfl]
      exact le_max_right ..
    refine keeps_modify_bind ?_
    refine (keeps_startMetadataMirror (hs₂.set_manifest (hmanifest₂ ▸ le_max_right ..) hnext)
      ?_).bind ?_
    · rintro cfId' nextSeq ⟨rfl, rfl⟩
      exact hnext
    · rintro _ s₃ ⟨hs₃, hcursor₃, rfl⟩
      exact keeps_pure ⟨hs₃, (hcursor₃.trans hcursor₂).trans hcursor₁, fun h => by cases h⟩

theorem keeps_reserveSstNameDurably {sstSeq : ℕ} :
    Keeps base Selected owned s₀ (fun _ s' => s'.Goes base Selected owned s₀ ∧
      s'.cursor = s.cursor ∧ ∃ bound, sstSeq < bound ∧ Selected cfId bound)
      (reserveSstNameDurably calls cfId sstSeq) s := by
  refine keeps_get_bind ?_
  rw [if_pos hs.inv.hybrid]
  refine (keeps_beginSstNameReservation hs).bind ?_
  rintro pending s₁ ⟨hs₁, hcursor, hbound⟩
  exact keeps_check hs₁ fun _ hpending => ⟨hs₁, hcursor, hbound (ensure_eq_ok.1 hpending)⟩

/-! ### Flushes -/

theorem keeps_reserveFlushSstSeq :
    Keeps base Selected owned s₀ (fun sstSeq s' =>
      s'.Goes base Selected ((cfId, sstSeq) :: owned) s₀ ∧
        ∃ bound, sstSeq < bound ∧ Selected cfId bound) (reserveFlushSstSeq calls cfId) s := by
  refine (keeps_nextSstName hs).bind ?_
  rintro sstSeq s₁ ⟨hs₁, -⟩
  refine (keeps_reserveSstNameDurably hs₁).bind ?_
  rintro _ s₂ ⟨hs₂, -, hbound⟩
  refine (keeps_consumeSstName hs₂).bind ?_
  rintro _ s₃ ⟨hs₃, -⟩
  exact keeps_pure ⟨hs₃, hbound⟩

omit hs in
/-- The number that belongs to the caller is given to an output. -/
theorem NameState.Goes.give (hs : s.Goes base Selected ((cfId, name) :: owned) s₀) {bound : ℕ}
    (hlt : name < bound) (hselected : Selected cfId bound) :
    ({ s with admitted := s.admitted ++ [(cfId, name)] } : NameState).Goes base Selected owned
      s₀ :=
  hs.of_parts rfl (Subset.refl _) hs.inv.files hs.inv.numbers
    (hs.inv.admissions.give hlt hselected)

theorem keeps_ensureFlushSstIdentity {gateActive : Bool}
    {identity : FlushIdentity} :
    Stays base Selected owned s₀ (ensureFlushSstIdentity calls gateActive identity) s := by
  refine keeps_get_bind ?_
  cases s.flushes identity.flushId with
  | none => exact keeps_throw hs
  | some flush =>
    dsimp only
    split_ifs
    · exact keeps_throw hs
    · cases flush.sstName with
      | none =>
        cases flush.sstSeq with
        | some _ => exact keeps_throw hs
        | none =>
          refine keeps_check_bind hs fun _ _ => ?_
          refine (keeps_reserveFlushSstSeq hs).bind ?_
          rintro sstSeq s₁ ⟨hs₁, bound, hlt, hselected⟩
          exact keeps_modify_bind (keeps_pure ((hs₁.give hlt hselected).of_eq rfl))
      | some _ =>
        cases flush.sstSeq with
        | none => exact keeps_throw hs
        | some seq =>
          dsimp only
          split_ifs
          · exact keeps_pure hs
          · exact keeps_throw hs

theorem NameState.Goes.set_cursor :
    ({ s with
        cursor := Function.update s.cursor cfId
          (some ((s.cursor cfId).getD (s.manifest.next cfId))) } : NameState).Goes base Selected
      owned s₀ :=
  hs.of_parts rfl (Subset.refl _) hs.inv.files
    (hs.inv.numbers.set_cursor hs.inv.files.loaded cfId) hs.inv.admissions

omit hs in
theorem cursor_of_flushNamePrefetchCandidate {families : List ℕ} {cursor bound : ℕ}
    (h : families.findSome? s.flushNamePrefetchCandidate = some (cfId, cursor, bound)) :
    cursor = (s.cursor cfId).getD (s.manifest.next cfId) := by
  obtain ⟨family, -, hfamily⟩ := exists_of_findSome?_eq_some h
  unfold NameState.flushNamePrefetchCandidate at hfamily
  dsimp only at hfamily
  split_ifs at hfamily
  cases hfamily
  rfl

theorem keeps_prefetchFlushSstNames {now : ℕ} {blocked : Bool}
    {families : List ℕ} :
    Stays base Selected owned s₀ (prefetchFlushSstNames calls now blocked families) s := by
  refine keeps_get_bind ?_
  split_ifs
  · exact keeps_pure hs
  · cases hfamily : (0 :: families).findSome? s.flushNamePrefetchCandidate with
    | none => exact keeps_pure hs
    | some candidate =>
      obtain ⟨cfId, cursor, bound⟩ := candidate
      have hcursor := cursor_of_flushNamePrefetchCandidate hfamily
      refine keeps_modify_bind (keeps_attempt_bind ((keeps_beginSstNameReservation ?_).imp
        fun _ s' h => h.1) fun result s' hs' => keeps_modify (hs'.of_eq rfl))
      have hset : (s.cursor cfId).getD cursor = (s.cursor cfId).getD (s.manifest.next cfId) := by
        rw [hcursor]
        cases s.cursor cfId <;> rfl
      rw [hset]
      exact hs.set_cursor

/-! ### Compactions -/

omit hs in
theorem Keeps.weaken {x : NameM α} (hx : Keeps base Selected owned' s₀ Q x s)
    (himp : ∀ s' : NameState, s'.Goes base Selected owned' s₀ → s'.Goes base Selected owned s₀) :
    Keeps base Selected owned s₀ Q x s := Update.Yields.imp hx (fun _ _ h => h) fun _ => himp

/-- The number of the plan is owned, if it has one. -/
def NamedPlan.Owns (plan : NamedPlan) (owned owned' : List (ℕ × ℕ)) : Prop :=
  plan.outputSeq = 0 ∧ owned' = owned ∨ owned' = plan.name :: owned

omit hs in
theorem NamedPlan.Owns.drop (howns : plan.Owns owned owned')
    (hs : s.Goes base Selected owned' s₀) : s.Goes base Selected owned s₀ := by
  rcases howns with ⟨-, rfl⟩ | rfl
  · exact hs
  · exact hs.drop

theorem keeps_reserveCompactionName :
    Stays base Selected owned s₀ (reserveCompactionName calls plan) s := by
  refine keeps_get_bind ?_
  rw [if_pos hs.inv.hybrid]
  split_ifs
  · exact keeps_pure hs
  · exact (keeps_beginSstNameReservation hs).imp fun _ s' h => h.1

omit hs in
theorem keeps_startCompaction {calls : LaunchCalls}
    (hs : s.Goes base Selected (plan.name :: owned) s₀) :
    Stays base Selected owned s₀ (startCompaction calls plan) s := by
  refine keeps_check_bind hs.drop fun _ _ => ?_
  refine (keeps_reserveSstNameDurably hs).drop.bind ?_
  rintro _ s₁ ⟨hs₁, -, bound, hlt, hselected⟩
  have hs₂ := hs₁.give hlt hselected
  exact keeps_modify_bind (keeps_check_bind hs₂ fun _ _ => keeps_pure hs₂)

omit hs in
/-- A plan without a number is given one, and it keeps the one it has. -/
theorem keeps_assignCompactionName (howns : plan.Owns owned owned')
    (hs : s.Goes base Selected owned' s₀) :
    Keeps base Selected owned s₀
      (fun plan' s' => s'.Goes base Selected (plan'.name :: owned) s₀)
      (assignCompactionName plan) s := by
  unfold assignCompactionName
  split_ifs with hzero
  · exact (keeps_allocateCompactionSstName (howns.drop hs)).bind fun _ _ hs' => keeps_pure hs'
  · rcases howns with ⟨h, -⟩ | rfl
    · exact absurd h hzero
    · exact keeps_pure hs

omit hs in
theorem NameState.Goes.push (hs : s.Goes base Selected (plan.name :: owned) s₀) :
    ({ s with pendingCompactions := s.pendingCompactions ++ [plan] } : NameState).Goes base
      Selected owned s₀ :=
  hs.of_parts rfl (Subset.refl _) hs.inv.files hs.inv.numbers
    hs.inv.admissions.push

omit hs in
theorem keeps_launchCompaction {calls : LaunchCalls} (howns : plan.Owns owned owned')
    (hs : s.Goes base Selected owned' s₀) :
    Stays base Selected owned s₀ (launchCompaction calls plan) s := by
  refine keeps_check_bind (howns.drop hs) fun _ _ => ?_
  refine ((keeps_retryMetadataReload hs).weaken fun _ => howns.drop).bind ?_
  rintro _ s₁ ⟨hs₁, -⟩
  refine keeps_check_bind (howns.drop hs₁) fun _ _ => ?_
  refine (keeps_assignCompactionName howns hs₁).bind fun plan' s₂ hs₂ => ?_
  refine (keeps_reserveCompactionName hs₂).drop.bind fun waiting s₃ hs₃ => ?_
  cases waiting with
  | true => exact keeps_modify_bind (keeps_pure hs₃.push)
  | false => exact keeps_startCompaction hs₃

omit hs in
/-- The plan is launched, waits again or is dropped. This does not fail. -/
theorem yields_resumeCompaction {calls : LaunchCalls} {canResume : Bool}
    (hs : s.Goes base Selected (plan.name :: owned) s₀) :
    (resumeCompaction calls canResume plan result).Yields s
      (fun _ s' => s'.Goes base Selected owned s₀) fun _ _ => False := by
  unfold resumeCompaction
  cases result with
  | error _ => exact hs.drop
  | ok _ =>
    dsimp only
    split_ifs
    · exact yields_bind (yields_attempt (Update.Yields.imp
        (keeps_launchCompaction (.inr rfl) hs) (fun _ _ h => h) fun _ _ h => h))
    · exact yields_modify hs.push

omit hs in
/-- Each of the plans is launched, waits again or is dropped. -/
theorem keeps_resumeCompactions {calls : ℕ → LaunchCalls} (plans : List NamedPlan) :
    ∀ {i : ℕ} {s : NameState}, s.Goes base Selected (plans.map NamedPlan.name) s₀ →
    Stays base Selected [] s₀ (resumeCompactions calls canResume cfId nextSeq result i plans) s := by
  induction plans with
  | nil => exact fun hs => keeps_pure hs
  | cons plan plans ih =>
    intro i s hs
    -- A step does not fail, so the plans after it are not lost.
    have hrest : ∀ {x : NameM Unit}, x.Yields s
        (fun _ s' => s'.Goes base Selected (plans.map NamedPlan.name) s₀) (fun _ _ => False) →
        Stays base Selected [] s₀ (x >>= fun _ => resumeCompactions calls canResume cfId nextSeq result (i + 1) plans) s :=
      fun hx => yields_bind (imp hx (fun _ _ hs' => ih hs') fun _ _ h => h.elim)
    unfold resumeCompactions
    split_ifs
    · exact hrest (yields_resumeCompaction hs)
    · exact hrest (yields_modify hs.push)

theorem keeps_resumeReservedCompaction {calls : LaunchCalls} :
    Stays base Selected owned s₀ (resumeReservedCompaction calls canResume) s := by
  refine keeps_get_bind ?_
  split
  · exact keeps_pure hs
  · split
    · exact keeps_pure hs
    · rename_i plan hplan
      refine keeps_modify_bind (Update.Yields.imp (yields_resumeCompaction ?_) (fun _ _ h => h)
        fun _ _ h => h.elim)
      exact hs.of_parts rfl (Subset.refl _) hs.inv.files hs.inv.numbers
        (hs.inv.admissions.pop hplan)

/-! ### The end of a mirror -/

theorem NameState.Goes.stop :
    ({ s with mirror := none } : NameState).Goes base Selected owned s₀ :=
  hs.of_parts rfl (Subset.refl _) hs.inv.files.stop hs.inv.numbers
    hs.inv.admissions

theorem NameState.Goes.noteReservation (now : ℕ)
    (hselected : result = .ok () → Selected cfId nextSeq) :
    (s.noteReservation now cfId nextSeq result).Goes base Selected owned s₀ := by
  cases result with
  | ok _ =>
    exact hs.of_parts rfl (Subset.refl _) hs.inv.files hs.inv.numbers
      (hs.inv.admissions.reserve (hselected rfl))
  | error _ => exact hs.of_eq rfl

omit hs in
theorem keeps_finishSstReservation {calls : ℕ → LaunchCalls} {now : ℕ}
    (hs : s.Goes base Selected [] s₀) (hselected : result = .ok () → Selected cfId nextSeq) :
    Stays base Selected [] s₀ (finishSstReservation calls canResume now cfId nextSeq result) s := by
  have hs₁ := hs.noteReservation now hselected
  exact keeps_modify_bind (keeps_get_bind (keeps_modify_bind (keeps_resumeCompactions _
    (hs₁.of_parts rfl (Subset.refl _) hs₁.inv.files hs₁.inv.numbers
      hs₁.inv.admissions.take))))

omit hs in
theorem keeps_finishMetadataMirror {calls : ℕ → LaunchCalls} {now : ℕ}
    (hs : s.Goes base Selected [] s₀)
    (hselected : result = .ok () → ∀ cfId nextSeq, continuation.Reserves cfId nextSeq →
      Selected cfId nextSeq) :
    Stays base Selected [] s₀ (finishMetadataMirror calls canResume now continuation result) s := by
  refine keeps_modify_bind ?_
  cases continuation with
  | sstReservation cfId nextSeq =>
    exact keeps_finishSstReservation hs.stop fun hok => hselected hok _ _ ⟨rfl, rfl⟩
  | recovery cfId first nextSeq =>
    refine keeps_check_bind hs.stop fun _ _ => keeps_modify ?_
    exact hs.stop.of_parts rfl (Subset.refl _) hs.inv.files.stop
      hs.inv.numbers hs.inv.admissions
  | other => exact keeps_pure hs.stop

/-! ### The turns -/

theorem keeps_commitFlushPublication {append : JournalAppend}
    {nextSstSeq : ℕ} :
    Stays base Selected owned s₀ (commitFlushPublication append cfId nextSstSeq) s := by
  refine keeps_get_bind (keeps_check_bind hs fun _ _ => ?_)
  have hpos : 1 ≤ max (s.manifest.next cfId) nextSstSeq := le_max_of_le_left
    ((hs.inv.files.positive cfId).trans (hs.inv.files.loaded cfId))
  refine yields_bind (yields_attempt (Update.Yields.imp (keeps_appendBump hs hpos)
    ?_ ?_))
  · rintro _ s₁ ⟨hs₁, -, hmanifest, -, hdisk⟩
    refine keeps_modify ?_
    have hraise : s₁.manifest.Le (s₁.manifest.bump cfId (max (s.manifest.next cfId) nextSstSeq)) :=
      SstCounters.le_bump hpos
    refine hs₁.of_parts rfl (Subset.refl _)
      (hs₁.inv.files.raise_manifest hraise fun cfId' => ?_) (hs₁.inv.numbers.raise hraise)
      hs₁.inv.admissions
    have hwritten := hs.inv.files.written
    rw [hmanifest, hdisk, SstCounters.next_bump hpos, SstCounters.next_bump hpos]
    split_ifs with hcf
    · exact max_le_max_right _ (hwritten cfId)
    · exact hwritten cfId'
  · intro error s₁ hs₁
    exact keeps_modify_bind (keeps_throw (hs₁.of_eq rfl))

omit hs in
/-- A turn keeps the invariant. -/
theorem keeps_run (turn : NameTurn) (hs : s.Goes base Selected [] s₀) :
    Stays base Selected [] s₀ turn.run s := by
  cases turn with
  | freeze flushId cfId writerEpoch sequence => exact keeps_modify (hs.of_eq rfl)
  | flush calls gateActive identity =>
    exact (keeps_ensureFlushSstIdentity hs).bind fun _ _ hs' => keeps_pure hs'
  | settle flushId => exact keeps_modify (hs.of_eq rfl)
  | publish append cfId nextSstSeq => exact keeps_commitFlushPublication hs
  | prefetch calls now blocked families => exact keeps_prefetchFlushSstNames hs
  | compact calls cfId =>
    exact (keeps_launchCompaction (.inl ⟨rfl, rfl⟩) hs).bind fun _ _ hs' => keeps_pure hs'
  | resume calls canResume => exact keeps_resumeReservedCompaction hs
  | mirror fault =>
    refine (keeps_startMetadataMirror hs ?_).bind fun _ _ h => keeps_pure h.1
    rintro _ _ ⟨⟩
  | capture => exact keeps_captureControlCut hs
  | uncertain => exact keeps_modify (hs.of_eq rfl)

end Turns

/-! ## Recovery -/

section Recovery

variable {base : SstCounters} {Selected : ℕ → ℕ → Prop} {s s' : NameState} {cfId : ℕ}

/-- The process has gone on in the same phase, and its captures are kept. -/
structure NameState.Continues (base : SstCounters) (Selected : ℕ → ℕ → Prop) (s s' : NameState) :
    Prop where
  inv : s'.Inv base Selected []
  epoch : s'.epoch = s.epoch
  cuts : s.cuts ⊆ s'.cuts

theorem NameState.Goes.continues (hs : s'.Goes base Selected [] s) : s.Continues base Selected s' :=
  ⟨hs.inv, hs.epoch, hs.cuts⟩

/-- A number that no cursor has reached is handed out. -/
theorem NumbersInv.hand {manifest : SstCounters} {cursor : ℕ → Option ℕ} {handed : List (ℕ × ℕ)}
    {name : ℕ} (h : NumbersInv base manifest cursor handed) (hcursor : cursor cfId = none)
    (hbase : base.next cfId ≤ name) (hlt : name < manifest.next cfId)
    (hafter : ∀ name' ∈ handed, name'.1 = cfId → name'.2 < name) :
    NumbersInv base manifest cursor (handed ++ [(cfId, name)]) where
  begun := h.begun
  bounded := forall_mem_append.2
    ⟨h.bounded, forall_mem_singleton.2 (by simpa [hcursor] using ⟨hbase, hlt⟩)⟩
  increasing := pairwise_append.2 ⟨h.increasing, pairwise_singleton ..,
    fun name' hname' => forall_mem_singleton.2 (hafter name' hname')⟩

/-- Recovery takes a name of its block. -/
theorem NameState.Inv.take (hs : s.Inv base Selected []) (hphase : s.phase = .recovering)
    (hmirror : s.mirror = none) (hlt : (s.ranges cfId).1 < (s.ranges cfId).2) :
    ({ s with
        ranges := update s.ranges cfId ((s.ranges cfId).1 + 1, (s.ranges cfId).2)
        handed := s.handed ++ [(cfId, (s.ranges cfId).1)]
        admitted := s.admitted ++ [(cfId, (s.ranges cfId).1)] } : NameState).Inv base Selected
      [] := by
  have hrecovery := hs.recovery hphase
  obtain ⟨hbase, hbound, hselected, hafter⟩ := hrecovery.blocks cfId hlt
  have hnew : (cfId, (s.ranges cfId).1) ∉ s.handed := fun hmem => lt_irrefl _ (hafter _ hmem rfl)
  refine ⟨hs.hybrid, hs.files, hs.numbers.hand (hrecovery.fresh cfId) hbase (hlt.trans_le hbound)
    hafter, (hs.admissions.consume hnew).give hlt hselected, fun _ => ⟨hrecovery.fresh, ?_, ?_⟩⟩
  · intro cfId' hlt'
    dsimp only at hlt' ⊢
    by_cases hcf : cfId' = cfId
    · subst hcf
      rw [update_self] at hlt' ⊢
      exact ⟨by omega, hbound, hselected, forall_mem_append.2
        ⟨fun name hname hfamily => (hafter name hname hfamily).trans (Nat.lt_succ_self _),
          forall_mem_singleton.2 fun _ => Nat.lt_succ_self _⟩⟩
    · rw [update_of_ne hcf] at hlt' ⊢
      obtain ⟨hbase', hbound', hselected', hafter'⟩ := hrecovery.blocks cfId' hlt'
      exact ⟨hbase', hbound', hselected', forall_mem_append.2
        ⟨hafter', forall_mem_singleton.2 fun hfamily => absurd hfamily.symm hcf⟩⟩
  · intro job hjob
    rw [hmirror] at hjob
    cases hjob

/-- Recovery reserves the next block of a family, and waits for it to be selected. -/
theorem NameState.Inv.reserve (hs : s.Inv base Selected []) (hphase : s.phase = .recovering)
    (count : ℕ) :
    let manifest : SstCounters :=
      update s.manifest cfId (some (s.manifest.next cfId + count))
    ({ s with
        manifest
        disk := s.disk.merge manifest
        nextCut := s.nextCut + 1
        cuts := s.cuts ++ [⟨s.epoch, s.nextCut, s.disk.merge manifest⟩]
        mirror := some ⟨s.nextCut, .recovery cfId (s.manifest.next cfId)
          (s.manifest.next cfId + count)⟩ } : NameState).Inv base Selected [] := by
  intro manifest
  have hfiles := hs.files
  have hraise : s.manifest.Le manifest := fun cfId' => by
    rw [next_update]
    split_ifs with hcf
    · exact hcf ▸ Nat.le_add_right ..
    · exact le_rfl
  have hmerge : ∀ cfId', (s.disk.merge manifest).next cfId' =
      max (s.disk.next cfId') (manifest.next cfId') := fun cfId' =>
    have hpos := (hfiles.positive cfId').trans (hfiles.loaded cfId')
    next_merge (hpos.trans (hfiles.written cfId')) (hpos.trans (hraise cfId'))
  have hnext : manifest.next cfId = s.manifest.next cfId + count := by
    rw [next_update, if_pos rfl]
  have hdisk : s.disk.Le (s.disk.merge manifest) := fun cfId' => hmerge cfId' ▸ le_max_left ..
  have hwritten : manifest.Le (s.disk.merge manifest) :=
    fun cfId' => hmerge cfId' ▸ le_max_right ..
  have hrecovery := hs.recovery hphase
  refine ⟨hs.hybrid, ((hfiles.raise_disk hdisk).raise_manifest hraise hwritten).start ?_,
    hs.numbers.raise hraise, hs.admissions, fun _ => ⟨hrecovery.fresh, ?_, ?_⟩⟩
  · rintro cfId' nextSeq ⟨rfl, rfl⟩
    exact hnext ▸ hwritten cfId
  · intro cfId' hlt
    obtain ⟨hbase, hbound, hselected, hafter⟩ := hrecovery.blocks cfId' hlt
    exact ⟨hbase, hbound.trans (hraise cfId'), hselected, hafter⟩
  · rintro job ⟨⟩
    refine ⟨cfId, _, _, rfl, hfiles.loaded cfId, hnext.ge, fun name hname hcf => ?_⟩
    have hlt := (hs.numbers.bounded name hname).2
    rwa [hrecovery.fresh, hcf] at hlt

theorem state_of_startMetadataMirror {fault : Option MidgeError} {continuation : MirrorContinuation}
    {pending : Bool} (hok : startMetadataMirror fault continuation s = .ok pending s')
    (hhybrid : s.hybrid = true) :
    s' = { s with
      nextCut := s.nextCut + 1
      cuts := s.cuts ++ [⟨s.epoch, s.nextCut, s.disk⟩]
      mirror := some ⟨s.nextCut, continuation⟩ } := by
  simp only [startMetadataMirror, get_bind_eq_ok, hhybrid, if_true,
    check_bind_eq_ok] at hok
  obtain ⟨-, -, -, -, hok⟩ := hok
  cases hok
  rfl

theorem continues_takeRecoveryName {calls : RecoveryCalls} {count : ℕ}
    (hs : s.Inv base Selected []) (hphase : s.phase = .recovering)
    (hok : takeRecoveryName calls cfId count s = .ok () s') : s.Continues base Selected s' := by
  simp only [takeRecoveryName, get_bind_eq_ok, check_bind_eq_ok, ensure_eq_ok] at hok
  obtain ⟨-, hmirror, hok⟩ := hok
  split_ifs at hok with hlt
  · obtain rfl := modify_eq_ok.1 hok
    exact ⟨hs.take hphase hmirror hlt, rfl, Subset.refl _⟩
  · simp only [reserveSstSequence, get_bind_eq_ok, check_bind_eq_ok,
      modify_bind_eq_ok] at hok
    obtain ⟨-, -, nextSeq, hnext, -, -, hok⟩ := hok
    obtain rfl := sum_of_checkedAdd hnext
    obtain ⟨_, _, hstart, hend⟩ := bind_eq_ok.1 hok
    cases hend
    obtain rfl := state_of_startMetadataMirror hstart hs.hybrid
    exact ⟨hs.reserve hphase _, rfl, subset_append_left ..⟩

/-- The block has been selected. -/
theorem NameState.Inv.finish_recovery {first nextSeq : ℕ} {job : MirrorJob}
    (hs : s.Inv base Selected []) (hphase : s.phase = .recovering) (hjob : s.mirror = some job)
    (hcontinuation : job.continuation = .recovery cfId first nextSeq)
    (hselected : Selected cfId nextSeq) :
    ({ s with
        mirror := none
        ranges := update s.ranges cfId (first, nextSeq) } : NameState).Inv base Selected
      [] := by
  have hrecovery := hs.recovery hphase
  obtain ⟨_, _, _, heq, hbase, hbound, hafter⟩ := hrecovery.awaited job hjob
  rw [hcontinuation] at heq
  cases heq
  refine ⟨hs.hybrid, hs.files.stop, hs.numbers, hs.admissions,
    fun _ => ⟨hrecovery.fresh, fun cfId' hlt => ?_, fun _ h => by cases h⟩⟩
  dsimp only at hlt ⊢
  by_cases hcf : cfId' = cfId
  · subst hcf
    rw [update_self] at hlt ⊢
    exact ⟨hbase, hbound, hselected, hafter⟩
  · rw [update_of_ne hcf] at hlt ⊢
    exact hrecovery.blocks cfId' hlt

/-- More captures may be selected. -/
theorem NameState.Inv.mono {Selected' : ℕ → ℕ → Prop} {owned : List (ℕ × ℕ)}
    (hs : s.Inv base Selected owned) (himp : ∀ cfId bound, Selected cfId bound →
      Selected' cfId bound) : s.Inv base Selected' owned where
  __ := hs
  admissions :=
    { hs.admissions with
      reserved := fun cfId bound h => himp _ _ (hs.admissions.reserved cfId bound h)
      covered := fun name hname => by
        obtain ⟨bound, hlt, hselected⟩ := hs.admissions.covered name hname
        exact ⟨bound, hlt, himp _ _ hselected⟩ }
  recovery hphase :=
    { hs.recovery hphase with
      blocks := fun cfId hlt => by
        obtain ⟨hbase, hbound, hselected, hafter⟩ := (hs.recovery hphase).blocks cfId hlt
        exact ⟨hbase, hbound, himp _ _ hselected, hafter⟩ }

/-- A process that runs, or has crashed, is not bound by recovery any more. -/
theorem NameState.Inv.set_phase {owned : List (ℕ × ℕ)} (phase : NamePhase)
    (hs : s.Inv base Selected owned) (hphase : phase ≠ .recovering) :
    ({ s with phase } : NameState).Inv base Selected owned :=
  { hs with recovery := fun h => absurd h hphase }

/-- A process that has just taken over the counters. -/
theorem NameState.inv_hydrated {epoch : ℕ} (hpos : ∀ cfId, 1 ≤ base.next cfId) :
    ({ epoch, manifest := base, disk := base } : NameState).Inv base Selected [] where
  hybrid := rfl
  files := ⟨hpos, .refl _, .refl _, by simp, by simp, by simp⟩
  numbers := ⟨by simp, by simp, .nil⟩
  admissions := ⟨by simp, by simp, by simp, by simp⟩
  recovery _ := ⟨fun _ => rfl, by simp, by simp⟩

end Recovery

end Midge
