import Mathlib.Tactic

/-!
# Fallible computations in an environment

A computation that calls out to an environment it does not control: polling a
flag, reserving memory, reading or writing a file. Any such call may fail, and
nothing is known about when. The environment is the stream of its answers, one
per call, and a computation consumes them in order (`Exec.ask`).

A property of every successful run is proved through `Exec.Returns`: `x` may
return `a` in some environment. It commutes with `bind` (`returns_bind`), so
that a monadic program is taken apart call by call, and the environment never
shows up in the proofs.
-/

/-! ## Pure fallible computations -/

section Except

variable {ε : Type*} {α β : Type}

theorem except_bind_eq_ok {x : Except ε α} {f : α → Except ε β} {b : β} :
    (x >>= f) = .ok b ↔ ∃ a, x = .ok a ∧ f a = .ok b := by
  cases x with
  | error e | ok a => simp [bind, Except.bind]

theorem elim_error_eq_ok {o : Option α} {e : ε} {a : α} :
    o.elim (.error e) .ok = Except.ok a ↔ o = some a := by
  cases o <;> simp

theorem except_mapM_eq_ok {f : α → Except ε β} {l : List α} {m : List β} (h : l.mapM f = .ok m) :
    List.Forall₂ (fun a b => f a = .ok b) l m := by
  induction l generalizing m with
  | nil =>
    cases h
    exact .nil
  | cons a l ih =>
    rw [List.mapM_cons, except_bind_eq_ok] at h
    obtain ⟨b, hb, h⟩ := h
    obtain ⟨m', hm', h⟩ := except_bind_eq_ok.1 h
    cases h
    exact .cons hb (ih hm')

/-- Every element of the first list is related to one of the second. -/
theorem forall₂_exists {α β : Type*} {R : α → β → Prop} {l : List α} {m : List β}
    (h : List.Forall₂ R l m) {a : α} (ha : a ∈ l) : ∃ b ∈ m, R a b := by
  induction h with
  | nil => simp at ha
  | cons hab _ ih =>
    rcases List.mem_cons.1 ha with rfl | ha
    · exact ⟨_, List.mem_cons_self, hab⟩
    · obtain ⟨b, hb, h⟩ := ih ha
      exact ⟨b, List.mem_cons_of_mem _ hb, h⟩

end Except

/-! ## Computations in an environment -/

/-- The answers of the environment to successive calls: `none` lets the call
    through, `some e` fails it. -/
abbrev Env (ε : Type*) := ℕ → Option ε

/-- A computation consuming answers of the environment, that returns a value
    or fails. -/
def Exec (ε α : Type) := Env ε → Except ε (α × Env ε)

namespace Exec

open List

variable {ε α β : Type}

instance : Monad (Exec ε) where
  pure a := fun env => .ok (a, env)
  bind x f := fun env =>
    match x env with
    | .ok (a, env') => f a env'
    | .error e => .error e

instance : LawfulMonad (Exec ε) := LawfulMonad.mk' _
  (fun x => by
    funext env
    simp only [Functor.map]
    cases x env <;> rfl)
  (fun a f => rfl)
  (fun x f g => by
    funext env
    simp only [bind]
    cases x env <;> rfl)

/-- Call the environment, failing if it answers so. -/
def ask : Exec ε Unit := fun env =>
  match env 0 with
  | none => .ok ((), fun n => env (n + 1))
  | some e => .error e

/-- Call the environment if `b`. -/
def askWhen (b : Bool) : Exec ε Unit := if b then ask else pure ()

/-- Fail with `e`. -/
def fail (e : ε) : Exec ε α := fun _ => .error e

/-- A pure fallible computation. -/
def ofExcept (x : Except ε α) : Exec ε α := fun env =>
  match x with
  | .ok a => .ok (a, env)
  | .error e => .error e

/-- The environment that lets every call through. -/
def calm : Env ε := fun _ => none

/-- `x` returns `a` in some environment. -/
def Returns (x : Exec ε α) (a : α) : Prop := ∃ env env', x env = .ok (a, env')

theorem Returns.intro {x : Exec ε α} {a : α} {env env' : Env ε} (h : x env = .ok (a, env')) :
    Returns x a := ⟨env, env', h⟩

@[simp]
theorem returns_pure {a b : α} : Returns (pure a : Exec ε α) b ↔ b = a := by
  constructor
  · rintro ⟨env, env', h⟩
    cases h
    rfl
  · rintro rfl
    exact ⟨calm, calm, rfl⟩

theorem returns_bind {x : Exec ε α} {f : α → Exec ε β} {b : β} (h : Returns (x >>= f) b) :
    ∃ a, Returns x a ∧ Returns (f a) b := by
  obtain ⟨env, env', h⟩ := h
  simp only [bind] at h
  split at h
  next a env₁ hx => exact ⟨a, ⟨env, env₁, hx⟩, ⟨env₁, env', h⟩⟩
  next => cases h

theorem returns_seq {x : Exec ε Unit} {f : Unit → Exec ε β} {b : β} (h : Returns (x >>= f) b) :
    Returns (f ()) b :=
  (returns_bind h).choose_spec.2

@[simp]
theorem not_returns_fail {e : ε} {a : α} : ¬ Returns (fail e : Exec ε α) a := by
  rintro ⟨env, env', h⟩
  cases h

theorem returns_ofExcept {x : Except ε α} {a : α} : Returns (ofExcept x) a ↔ x = .ok a := by
  constructor
  · rintro ⟨env, env', h⟩
    cases x with
    | error e => cases h
    | ok b => cases h; rfl
  · rintro rfl
    exact ⟨calm, calm, rfl⟩

theorem returns_ofExcept_bind {x : Except ε α} {f : α → Exec ε β} {b : β}
    (h : Returns (ofExcept x >>= f) b) : ∃ a, x = .ok a ∧ Returns (f a) b := by
  obtain ⟨a, ha, h⟩ := returns_bind h
  exact ⟨a, returns_ofExcept.1 ha, h⟩

theorem returns_ite {p : Prop} [Decidable p] {x y : Exec ε α} {a : α} :
    Returns (if p then x else y) a ↔ (p ∧ Returns x a) ∨ (¬ p ∧ Returns y a) := by
  split_ifs with hp <;> simp [hp]

theorem returns_ite_fail {p : Prop} [Decidable p] {e : ε} {y : Exec ε α} {a : α} :
    Returns (if p then fail e else y) a ↔ ¬ p ∧ Returns y a := by
  simp [returns_ite]

/-- A loop over a list: what holds of the elements so far, from step to step, holds of all
    of them at the end. -/
theorem returns_foldlM {ι : Type*} {f : α → ι → Exec ε α} {l : List ι} {a b : α}
    {Q : List ι → α → Prop} (h : Returns (l.foldlM f a) b) (hnil : Q [] a)
    (hstep : ∀ done i, i ∈ l → ∀ a a', Returns (f a i) a' → Q done a → Q (done ++ [i]) a') :
    Q l b := by
  -- The rest of the list, after the elements that are done.
  have hrest : ∀ (rest done : List ι) (a : α), (∀ i ∈ rest, i ∈ l) →
      Returns (rest.foldlM f a) b → Q done a → Q (done ++ rest) b := by
    intro rest
    induction rest with
    | nil =>
      intro done a _ h hdone
      rw [foldlM_nil, returns_pure] at h
      rw [h, append_nil]
      exact hdone
    | cons i rest ih =>
      intro done a hmem h hdone
      rw [foldlM_cons] at h
      obtain ⟨a', ha', h⟩ := returns_bind h
      have := ih (done ++ [i]) a' (fun j hj => hmem j (mem_cons_of_mem _ hj)) h
        (hstep done i (hmem i mem_cons_self) a a' ha' hdone)
      rwa [append_assoc, singleton_append] at this
  exact hrest l [] a (fun _ hi => hi) h hnil

end Exec
