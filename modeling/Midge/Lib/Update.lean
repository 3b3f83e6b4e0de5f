import Mathlib.Tactic

/-!
# Updates in place

An update changes a state in place, and may fail in the middle: then the state is
left as the changes made so far have it (`EStateM`). An update that checks all it
has to check before its first change fails without changing anything
(`Update.Atomic`).

A machine has an update for each of its inputs. A run feeds it inputs one after the
other, and goes on after those that it rejects (`Update.runAll`). What the accepted
inputs preserve holds after every run (`Update.runAll_induct`).
-/

/-- An update of a state `σ` that may fail with an `ε`. -/
abbrev Update (ε σ : Type) := EStateM ε σ

/-- A condition that an update requires. -/
def ensure {ε : Type} (c : Prop) [Decidable c] (error : ε) : Except ε Unit :=
  if c then .ok () else .error error

@[simp]
theorem ensure_eq_ok {ε : Type} {c : Prop} [Decidable c] {error : ε} {u : Unit} :
    ensure c error = .ok u ↔ c := by
  rw [ensure]
  split_ifs with h <;> simp [h]

theorem mapError_eq_ok {ε ε' α : Type} {x : Except ε α} {f : ε → ε'} {a : α} :
    x.mapError f = .ok a ↔ x = .ok a := by
  cases x <;> simp [Except.mapError]

/-- A check of every item of a list. -/
theorem except_forM_eq_ok {ε α : Type} {f : α → Except ε PUnit} {l : List α} {u : PUnit} :
    l.forM f = .ok u ↔ ∀ a ∈ l, f a = .ok u := by
  induction l with
  | nil => simp [List.forM, pure, Except.pure]
  | cons a l ih =>
    rw [List.forM, List.forall_mem_cons, ← ih]
    cases f a with
    | error e | ok b => simp [bind, Except.bind]

namespace Update

variable {ε σ α β : Type}

/-- Check, without changing the state. -/
def check (x : Except ε α) : Update ε σ α :=
  match x with
  | .ok a => pure a
  | .error e => throw e

/-- The state that an update leaves, whether it fails or not. -/
def after (x : Update ε σ α) (s : σ) : σ :=
  match x s with
  | .ok _ s' => s'
  | .error _ s' => s'

theorem after_of_ok {x : Update ε σ α} {s s' : σ} {a : α} (h : x s = .ok a s') :
    x.after s = s' := by
  simp only [after, h]

section Ok

variable {s s' : σ} {a : α} {b : β}

theorem bind_eq_ok {x : Update ε σ α} {f : α → Update ε σ β} :
    (x >>= f) s = .ok b s' ↔ ∃ a s₁, x s = .ok a s₁ ∧ f a s₁ = .ok b s' := by
  change EStateM.bind x f s = _ ↔ _
  rw [EStateM.bind]
  cases x s with
  | ok a s₁ | error e s₁ => simp

@[simp]
theorem check_bind_eq_ok {x : Except ε α} {f : α → Update ε σ β} :
    (check x >>= f) s = .ok b s' ↔ ∃ a, x = .ok a ∧ f a s = .ok b s' := by
  cases x with
  | ok a => simp [check]
  | error e =>
    simp only [check, reduceCtorEq, false_and, exists_false, iff_false]
    exact nofun

@[simp]
theorem get_bind_eq_ok {f : σ → Update ε σ β} :
    ((get : Update ε σ σ) >>= f) s = .ok b s' ↔ f s s = .ok b s' := Iff.rfl

@[simp]
theorem modify_bind_eq_ok {g : σ → σ} {f : PUnit → Update ε σ β} :
    ((modify g : Update ε σ PUnit) >>= f) s = .ok b s' ↔ f ⟨⟩ (g s) = .ok b s' := Iff.rfl

@[simp]
theorem modify_eq_ok {g : σ → σ} {u : PUnit} :
    (modify g : Update ε σ PUnit) s = .ok u s' ↔ g s = s' := by
  change EStateM.Result.ok _ _ = _ ↔ _
  simp

end Ok

/-! ## Updates that fail without changing anything -/

/-- The update leaves the state as it is when it fails. -/
def Atomic (x : Update ε σ α) : Prop := ∀ s e s', x s = .error e s' → s' = s

/-- The update never fails. -/
def Total (x : Update ε σ α) : Prop := ∀ s e s', x s ≠ .error e s'

theorem Total.atomic {x : Update ε σ α} (h : Total x) : Atomic x :=
  fun s e s' hx => absurd hx (h s e s')

theorem total_modify (g : σ → σ) : Total (modify g : Update ε σ PUnit) := nofun

theorem total_modify_bind {g : σ → σ} {f : PUnit → Update ε σ β} (h : Total (f ⟨⟩)) :
    Total ((modify g : Update ε σ PUnit) >>= f) := fun s e s' => h (g s) e s'

theorem atomic_get_bind {f : σ → Update ε σ β} (h : ∀ s, Atomic (f s)) :
    Atomic ((get : Update ε σ σ) >>= f) := fun s e s' => h s s e s'

theorem atomic_check_bind {x : Except ε α} {f : α → Update ε σ β} (h : ∀ a, Atomic (f a)) :
    Atomic (check x >>= f) := by
  intro s e s' hx
  cases x with
  | ok a => exact h a s e s' hx
  | error _ =>
    cases hx
    rfl

theorem Atomic.after_of_error {x : Update ε σ α} (h : Atomic x) {s s' : σ} {e : ε}
    (hx : x s = .error e s') : x.after s = s := by
  rw [after, hx]
  exact h s e s' hx

/-! ## Pre- and postconditions -/

/-- Go on whether the update fails or not. -/
def attempt {ε' : Type} (x : Update ε σ α) : Update ε' σ (Except ε α) := fun s =>
  match x s with
  | .ok a s' => .ok (.ok a) s'
  | .error e s' => .ok (.error e) s'

/-- Update a part of a state. -/
def zoom {τ : Type} (part : τ → σ) (put : σ → τ → τ) (x : Update ε σ α) : Update ε τ α := fun t =>
  match x (part t) with
  | .ok a s' => .ok a (put s' t)
  | .error e s' => .error e (put s' t)

/-- From `s` the update returns `a` in a state with `Q a`, or fails with `e` in a state
    with `E e`. -/
def Yields (x : Update ε σ α) (s : σ) (Q : α → σ → Prop) (E : ε → σ → Prop) : Prop :=
  match x s with
  | .ok a s' => Q a s'
  | .error e s' => E e s'

section Yields

variable {s : σ} {Q : α → σ → Prop} {R : β → σ → Prop} {E : ε → σ → Prop}

theorem Yields.imp {x : Update ε σ α} {Q' : α → σ → Prop} {E' : ε → σ → Prop}
    (h : x.Yields s Q E) (hQ : ∀ a s', Q a s' → Q' a s') (hE : ∀ e s', E e s' → E' e s') :
    x.Yields s Q' E' := by
  rw [Yields] at h ⊢
  split at h
  · exact hQ _ _ h
  · exact hE _ _ h

theorem yields_bind {x : Update ε σ α} {f : α → Update ε σ β}
    (h : x.Yields s (fun a s' => (f a).Yields s' R E) E) : (x >>= f).Yields s R E := by
  rw [Yields] at h ⊢
  change match EStateM.bind x f s with
    | .ok a s' => R a s'
    | .error e s' => E e s'
  rw [EStateM.bind]
  cases hx : x s with
  | ok a s' =>
    rw [hx] at h
    exact h
  | error e s' =>
    rw [hx] at h
    exact h

theorem yields_check {x : Except ε α} (hok : ∀ a, x = .ok a → Q a s)
    (herror : ∀ e, x = .error e → E e s) : (check x).Yields s Q E := by
  cases x with
  | ok a => exact hok a rfl
  | error e => exact herror e rfl

theorem yields_get {Q : σ → σ → Prop} (h : Q s s) : (get : Update ε σ σ).Yields s Q E := h

theorem yields_modify {g : σ → σ} {Q : PUnit → σ → Prop} (h : Q ⟨⟩ (g s)) :
    (modify g : Update ε σ PUnit).Yields s Q E := h

theorem yields_throw {e : ε} (h : E e s) : (throw e : Update ε σ α).Yields s Q E := h

theorem yields_pure {a : α} (h : Q a s) : (pure a : Update ε σ α).Yields s Q E := h

theorem yields_discard {x : Update ε σ α} {Q : PUnit → σ → Prop}
    (h : x.Yields s (fun _ => Q ⟨⟩) E) : (discard x : Update ε σ PUnit).Yields s Q E :=
  yields_bind (h.imp (fun _ _ hQ => hQ) fun _ _ hE => hE)

theorem yields_attempt {ε' : Type} {x : Update ε σ α} {Q : Except ε α → σ → Prop}
    {E' : ε' → σ → Prop} (h : x.Yields s (fun a => Q (.ok a)) fun e => Q (.error e)) :
    (attempt x : Update ε' σ _).Yields s Q E' := by
  rw [Yields] at h ⊢
  rw [attempt]
  cases hx : x s with
  | ok a s' => simpa [hx] using h
  | error e s' => simpa [hx] using h

theorem yields_zoom {τ : Type} {part : τ → σ} {put : σ → τ → τ} {x : Update ε σ α} {t : τ}
    {Q : α → τ → Prop} {E : ε → τ → Prop}
    (h : x.Yields (part t) (fun a s' => Q a (put s' t)) fun e s' => E e (put s' t)) :
    (zoom part put x).Yields t Q E := by
  rw [Yields] at h ⊢
  rw [zoom]
  cases hx : x (part t) with
  | ok a s' => simpa [hx] using h
  | error e s' => simpa [hx] using h

theorem Yields.after {x : Update ε σ α} {P : σ → Prop}
    (h : x.Yields s (fun _ => P) fun _ => P) : P (x.after s) := by
  rw [Yields] at h
  rw [Update.after]
  split at h <;> simpa

end Yields

/-! ## Runs -/

variable (apply : β → Update ε σ Unit)

/-- The state after all the inputs, also those that are rejected. -/
def runAll (s : σ) (inputs : List β) : σ := inputs.foldl (fun s b => (apply b).after s) s

/-- The inputs that are accepted, in order. -/
def accepted (s : σ) : List β → List β
  | [] => []
  | b :: inputs =>
    match apply b s with
    | .ok _ s' => b :: accepted s' inputs
    | .error _ s' => accepted s' inputs

variable {apply}

theorem runAll_append (s : σ) (inputs more : List β) :
    runAll apply s (inputs ++ more) = runAll apply (runAll apply s inputs) more := by
  rw [runAll, List.foldl_append]
  rfl

/-- What the accepted inputs preserve holds after every run. -/
theorem runAll_induct {P : σ → Prop} {s : σ} (hatomic : ∀ b, Atomic (apply b)) (hs : P s)
    (hstep : ∀ s b s', P s → apply b s = .ok () s' → P s') (inputs : List β) :
    P (runAll apply s inputs) := by
  induction inputs generalizing s with
  | nil => exact hs
  | cons b inputs ih =>
    have hafter : P ((apply b).after s) := by
      cases hb : apply b s with
      | ok u s' =>
        rw [after_of_ok hb]
        exact hstep s b s' hs hb
      | error e s' => rwa [(hatomic b).after_of_error hb]
    exact ih hafter

end Update
