import Mathlib.Data.Nat.Notation
import Mathlib.Logic.Function.Basic
import Mathlib.Logic.Relation

/-!
# Interleaved programs

A program is a tree of calls: it makes a call, goes on with the answer, and ends with a
result (`Prog`). Several programs share a world, each as a thread of its own. At every step one
of them makes its next call, or the world changes by itself, and a program may start or be
cut off at any time (`Pool.Step`).

What a program does is specified against the other programs: the world may change between
two calls, but only in ways that the thread relies on (`Semantics.le`, `Semantics.rely`), and
the program keeps the invariant and what the other threads rely on itself (`Prog.Correct`). If
all programs do so, then the invariant holds in every world that is reached, whatever the
interleaving, and every program that has ended leaves its postcondition behind (`Safe.run`,
`Safe.of_ret`).
-/

/-- A program that makes calls `c : C`, which are answered by `R c`. -/
inductive Prog (C : Type) (R : C → Type) (β : Type) : Type
  | ret (b : β)
  | call (c : C) (k : R c → Prog C R β)

namespace Prog

variable {C : Type} {R : C → Type} {α β ε W : Type}

/-- One program after the other. -/
def bind : Prog C R α → (α → Prog C R β) → Prog C R β
  | .ret a, f => f a
  | .call c k, f => .call c fun r => (k r).bind f

instance : Monad (Prog C R) where
  pure := .ret
  bind := bind

/-- A single call. -/
def perform (c : C) : Prog C R (R c) := .call c .ret

end Prog

/-- How calls are answered and the world changes. -/
structure Semantics (C : Type) (R : C → Type) (W : Type) where
  /-- A call of a thread may be answered in this way, which leads to another world. -/
  exec : ℕ → W → (c : C) → R c → W → Prop
  /-- The world may change by itself. -/
  env : W → W → Prop
  /-- What holds of every world. -/
  inv : W → Prop
  /-- How a world may come about from another. -/
  le : W → W → Prop
  /-- What a thread relies on about the steps of the others. -/
  rely : ℕ → W → W → Prop

namespace Semantics

variable {C : Type} {R : C → Type} {W : Type}

/-- The calls that meet a condition. -/
def restrict (S : Semantics C R W) (P : W → W → Prop) : Semantics C R W :=
  { S with exec := fun i w c r w' => S.exec i w c r w' ∧ P w w' }

/-- What a step keeps. -/
structure Kept (S : Semantics C R W) (w w' : W) : Prop where
  inv : S.inv w'
  le : S.le w w'

/-- The worlds to come are ordered, and every change of the world by itself keeps the
    invariant and what the threads rely on. -/
structure Lawful (S : Semantics C R W) : Prop where
  refl : ∀ w, S.le w w
  trans : ∀ {w₁ w₂ w₃}, S.le w₁ w₂ → S.le w₂ w₃ → S.le w₁ w₃
  rely_refl : ∀ i w, S.rely i w w
  rely_trans : ∀ {i w₁ w₂ w₃}, S.rely i w₁ w₂ → S.rely i w₂ w₃ → S.rely i w₁ w₃
  env : ∀ {w w'}, S.inv w → S.env w w' → S.Kept w w' ∧ ∀ i, S.rely i w w'

attribute [class] Lawful

/-- The others have made steps. -/
structure Later (S : Semantics C R W) (i : ℕ) (w w' : W) : Prop where
  le : S.le w w'
  rely : S.rely i w w'
  inv : S.inv w'

variable {S : Semantics C R W}

theorem Later.of_inv [hS : S.Lawful] {i : ℕ} {w : W} (hinv : S.inv w) : S.Later i w w :=
  ⟨hS.refl w, hS.rely_refl i w, hinv⟩

theorem Later.trans [hS : S.Lawful] {i : ℕ} {w₁ w₂ w₃ : W} (h : S.Later i w₁ w₂)
    (h' : S.Later i w₂ w₃) : S.Later i w₁ w₃ :=
  ⟨hS.trans h.le h'.le, hS.rely_trans h.rely h'.rely, h'.inv⟩

/-- What a thread knows, whatever the others do. -/
structure Frame (S : Semantics C R W) (i : ℕ) where
  holds : W → Prop
  stable : ∀ {w w'}, S.Later i w w' → holds w → holds w'

/-- Nothing is known. -/
def Frame.top (S : Semantics C R W) (i : ℕ) : S.Frame i := ⟨fun _ => True, fun _ h => h⟩

/-- Two things are known. -/
def Frame.and {i : ℕ} (F G : S.Frame i) : S.Frame i :=
  ⟨fun w => F.holds w ∧ G.holds w, fun hlater h => ⟨F.stable hlater h.1, G.stable hlater h.2⟩⟩

end Semantics

namespace Prog

variable {C : Type} {R : C → Type} {α β ε W : Type} {S : Semantics C R W} {i : ℕ} {c : C}

/-- From the world `w` on, the program keeps the invariant and what the other threads rely on,
    whatever they do, and ends with a result that satisfies the postcondition. -/
def Correct (S : Semantics C R W) (i : ℕ) (Q : β → W → Prop) : Prog C R β → W → Prop
  | .ret b, w => ∀ w', S.Later i w w' → Q b w'
  | .call c k, w => ∀ w', S.Later i w w' → ∀ r w'', S.exec i w' c r w'' →
    (S.Kept w' w'' ∧ ∀ j, j ≠ i → S.rely j w' w'') ∧ Correct S i Q (k r) w''

theorem Correct.mono [hS : S.Lawful] {Q : β → W → Prop} {p : Prog C R β} {w w' : W}
    (h : Correct S i Q p w) (hle : S.Later i w w') : Correct S i Q p w' := by
  cases p with
  | ret b | call c k => exact fun w'' hle' => h w'' (hle.trans hle')

/-- A weaker postcondition. -/
theorem Correct.imp [hS : S.Lawful] {Q Q' : β → W → Prop} {p : Prog C R β} {w : W}
    (h : Correct S i Q p w)
    (himp : ∀ b w', S.le w w' → S.inv w' → Q b w' → Q' b w') : Correct S i Q' p w := by
  induction p generalizing w with
  | ret b => exact fun w' hlater => himp b w' hlater.le hlater.inv (h w' hlater)
  | call c k ih =>
    intro w' hlater r w'' hexec
    obtain ⟨⟨hkept, hrely⟩, hk⟩ := h w' hlater r w'' hexec
    exact ⟨⟨hkept, hrely⟩, ih r hk fun b w₃ hle₃ =>
      himp b w₃ (hS.trans (hS.trans hlater.le hkept.le) hle₃)⟩

/-- The world may move on before the program makes its first call. -/
theorem Correct.of_forall [hS : S.Lawful] {Q : β → W → Prop} {p : Prog C R β} {w : W}
    (h : ∀ w', S.Later i w w' → Correct S i Q p w') : Correct S i Q p w := by
  cases p with
  | ret b | call c k => exact fun w' hlater => h w' hlater w' (.of_inv hlater.inv)

theorem Correct.bind [hS : S.Lawful] {Q : β → W → Prop} {p : Prog C R α} {f : α → Prog C R β}
    {w : W} (h : Correct S i (fun a => Correct S i Q (f a)) p w) : Correct S i Q (p.bind f) w := by
  induction p generalizing w with
  | ret a => exact .of_forall h
  | call c k ih =>
    intro w' hlater r w'' hexec
    obtain ⟨hstep, hk⟩ := h w' hlater r w'' hexec
    exact ⟨hstep, ih r hk⟩

/-! ## Errors -/

/-- A call of a program that may fail. -/
def ask (c : C) : ExceptT ε (Prog C R) (R c) := ExceptT.lift (perform c)

/-- Go on with a result, or fail with it. -/
def settle (r : Except ε α) : ExceptT ε (Prog C R) α := ExceptT.mk (.ret r)

/-- Fail unless the condition holds. -/
def require (condition : Bool) (e : ε) : ExceptT ε (Prog C R) Unit :=
  settle (if condition then .ok () else .error e)

/-- Find out whether a program fails. -/
def attempt (p : ExceptT ε (Prog C R) α) : ExceptT ε (Prog C R) (Except ε α) :=
  ExceptT.lift p.run

/-- The program is correct, it leaves what is known as it is, and its result satisfies the
    postcondition unless it fails. -/
def Ensures (S : Semantics C R W) (i : ℕ) (F : S.Frame i) (Q : α → W → Prop)
    (p : ExceptT ε (Prog C R) α) (w : W) : Prop :=
  Correct S i (fun r w' => F.holds w' ∧ ∀ a, r = .ok a → Q a w') p.run w

variable {F : S.Frame i} {Q : β → W → Prop} {w : W}

theorem correct_lift {Q : Except ε α → W → Prop} {p : Prog C R α}
    (h : Correct S i (fun a => Q (.ok a)) p w) : Correct S i Q (ExceptT.lift p).run w := by
  induction p generalizing w with
  | ret a => exact h
  | call c k ih =>
    intro w' hlater r w'' hexec
    obtain ⟨hstep, hk⟩ := h w' hlater r w'' hexec
    exact ⟨hstep, ih r hk⟩

/-- A weaker postcondition, for less knowledge. -/
theorem Ensures.imp [hS : S.Lawful] {F' : S.Frame i} {Q' : β → W → Prop}
    {p : ExceptT ε (Prog C R) β} (h : Ensures S i F Q p w)
    (hF : ∀ w', S.le w w' → S.inv w' → F.holds w' → F'.holds w')
    (himp : ∀ b w', S.le w w' → S.inv w' → F.holds w' → Q b w' → Q' b w') :
    Ensures S i F' Q' p w :=
  Correct.imp h fun _ w' hle hinv hr =>
    ⟨hF w' hle hinv hr.1, fun b hb => himp b w' hle hinv hr.1 (hr.2 b hb)⟩

/-- A weaker postcondition. -/
theorem Ensures.weaken [hS : S.Lawful] {Q' : β → W → Prop} {p : ExceptT ε (Prog C R) β}
    (h : Ensures S i F Q p w) (himp : ∀ b w', Q b w' → Q' b w') : Ensures S i F Q' p w :=
  h.imp (fun _ _ _ hF => hF) fun b w' _ _ _ => himp b w'

/-- One program after the other. The second one starts in any world that may have come
    about by then. -/
theorem Ensures.seq [hS : S.Lawful] {P : α → W → Prop} {p : ExceptT ε (Prog C R) α}
    {f : α → ExceptT ε (Prog C R) β} (hp : Ensures S i F P p w)
    (hf : ∀ a w', S.le w w' → S.inv w' → F.holds w' → P a w' → Ensures S i F Q (f a) w') :
    Ensures S i F Q (p >>= f) w := by
  refine Correct.bind (Correct.imp hp fun r w' hle hinv hr => ?_)
  cases r with
  | ok a => exact hf a w' hle hinv hr.1 (hr.2 a rfl)
  | error e => exact fun _ hlater => ⟨F.stable hlater hr.1, fun a ha => nomatch ha⟩

/-- One program after the other, whatever the first one has found. -/
theorem Ensures.next [hS : S.Lawful] {P : α → W → Prop} {p : ExceptT ε (Prog C R) α}
    {f : α → ExceptT ε (Prog C R) β} (hp : Ensures S i F P p w)
    (hf : ∀ a w', F.holds w' → Ensures S i F Q (f a) w') : Ensures S i F Q (p >>= f) w :=
  hp.seq fun a w' _ _ hF _ => hf a w' hF

section

variable (hw : F.holds w)

include hw

theorem Ensures.pure {b : β} (h : ∀ w', S.Later i w w' → F.holds w' → Q b w') :
    Ensures S i F Q (Pure.pure b : ExceptT ε (Prog C R) β) w := by
  intro w' hlater
  refine ⟨F.stable hlater hw, fun a ha => ?_⟩
  cases ha
  exact h w' hlater (F.stable hlater hw)

/-- Nothing more is to be done. -/
theorem Ensures.done {b : β} :
    Ensures S i F (fun _ _ => True) (Pure.pure b : ExceptT ε (Prog C R) β) w :=
  Ensures.pure hw fun _ _ _ => trivial

theorem Ensures.throw {e : ε} :
    Ensures S i F Q (MonadExcept.throw e : ExceptT ε (Prog C R) β) w :=
  fun _ hlater => ⟨F.stable hlater hw, fun _ ha => nomatch ha⟩

theorem Ensures.settle {r : Except ε β}
    (h : ∀ b, r = .ok b → ∀ w', S.Later i w w' → F.holds w' → Q b w') :
    Ensures S i F Q (Prog.settle r : ExceptT ε (Prog C R) β) w :=
  fun w' hlater => ⟨F.stable hlater hw, fun b hb => h b hb w' hlater (F.stable hlater hw)⟩

theorem Ensures.settle_seq {r : Except ε α} {f : α → ExceptT ε (Prog C R) β}
    (h : ∀ a, r = .ok a → Ensures S i F Q (f a) w) :
    Ensures S i F Q (Prog.settle r >>= f) w := by
  cases r with
  | ok a => exact h a rfl
  | error e => exact Ensures.throw hw

theorem Ensures.require_seq {condition : Bool} {e : ε} {f : Unit → ExceptT ε (Prog C R) β}
    (h : condition = true → Ensures S i F Q (f ()) w) :
    Ensures S i F Q (Prog.require condition e >>= f) w := by
  refine Ensures.settle_seq hw fun a ha => ?_
  cases condition with
  | true => exact h rfl
  | false => cases ha

theorem Ensures.require {condition : Bool} {e : ε} {Q : Unit → W → Prop}
    (h : condition = true → ∀ w', S.Later i w w' → F.holds w' → Q () w') :
    Ensures S i F Q (Prog.require condition e : ExceptT ε (Prog C R) Unit) w := by
  refine Ensures.settle hw fun b hb => ?_
  cases condition with
  | true => exact h rfl
  | false => cases hb

end

/-- A call, after which the others may go on. -/
theorem Ensures.ask {Q : R c → W → Prop}
    (h : ∀ w', S.Later i w w' → ∀ r w'', S.exec i w' c r w'' →
      (S.Kept w' w'' ∧ ∀ j, j ≠ i → S.rely j w' w'') ∧
        F.holds w'' ∧ ∀ w₃, S.Later i w'' w₃ → F.holds w₃ → Q r w₃) :
    Ensures S i F Q (Prog.ask c : ExceptT ε (Prog C R) (R c)) w := by
  refine correct_lift fun w' hlater r w'' hexec => ?_
  obtain ⟨hstep, hF, hQ⟩ := h w' hlater r w'' hexec
  refine ⟨hstep, fun w₃ hlater₃ => ⟨F.stable hlater₃ hF, fun a ha => ?_⟩⟩
  cases ha
  exact hQ w₃ hlater₃ (F.stable hlater₃ hF)

theorem Ensures.attempt {p : ExceptT ε (Prog C R) β} [hS : S.Lawful] (h : Ensures S i F Q p w) :
    Ensures S i F (fun r w' => ∀ b, r = .ok b → Q b w') (Prog.attempt p) w := by
  refine correct_lift (Correct.imp h fun r w' _ _ hr => ⟨hr.1, fun a ha => ?_⟩)
  cases ha
  exact hr.2

end Prog

/-! ## Pools -/

/-- Programs that share a world. -/
structure Pool (C : Type) (R : C → Type) (β W : Type) where
  world : W
  threads : ℕ → Option (Prog C R β)

namespace Pool

variable {C : Type} {R : C → Type} {β W : Type}

/-- One program makes a call, or the world changes by itself, or a program starts or is cut
    off. -/
inductive Step (S : Semantics C R W) (starts : Prog C R β → Prop) :
    Pool C R β W → Pool C R β W → Prop
  | call {p : Pool C R β W} {i : ℕ} {c : C} {k : R c → Prog C R β} {r : R c} {w : W}
      (hthread : p.threads i = some (.call c k)) (hexec : S.exec i p.world c r w) :
      Step S starts p ⟨w, Function.update p.threads i (some (k r))⟩
  | env {p : Pool C R β W} {w : W} (henv : S.env p.world w) : Step S starts p ⟨w, p.threads⟩
  | start {p : Pool C R β W} {i : ℕ} {prog : Prog C R β} (hstart : starts prog) :
      Step S starts p ⟨p.world, Function.update p.threads i (some prog)⟩
  | stop {p : Pool C R β W} {i : ℕ} :
      Step S starts p ⟨p.world, Function.update p.threads i none⟩

/-- All programs are correct from here on. -/
structure Safe (S : Semantics C R W) (Q : β → W → Prop) (p : Pool C R β W) : Prop where
  inv : S.inv p.world
  correct : ∀ i prog, p.threads i = some prog → prog.Correct S i Q p.world

variable {S : Semantics C R W} {starts : Prog C R β → Prop} {Q : β → W → Prop}
  {p p' : Pool C R β W}

/-- A thread is replaced, and the others are correct. -/
theorem correct_update {threads : ℕ → Option (Prog C R β)} {i : ℕ} {o : Option (Prog C R β)} {w : W}
    (h : ∀ j, j ≠ i → ∀ prog, threads j = some prog → prog.Correct S j Q w)
    (ho : ∀ prog, o = some prog → prog.Correct S i Q w) (j : ℕ) (prog : Prog C R β)
    (hprog : Function.update threads i o j = some prog) : prog.Correct S j Q w := by
  by_cases hj : j = i
  · subst hj
    rw [Function.update_self] at hprog
    exact ho prog hprog
  · rw [Function.update_of_ne hj] at hprog
    exact h j hj prog hprog

theorem Safe.step [hS : S.Lawful]
    (hstarts : ∀ prog, starts prog → ∀ i w, S.inv w → prog.Correct S i Q w)
    (hsafe : Safe S Q p) (h : Step S starts p p') : Safe S Q p' ∧ S.le p.world p'.world := by
  cases h with
  | call hthread hexec =>
    obtain ⟨⟨hkept, hrely⟩, hk⟩ :=
      hsafe.correct _ _ hthread p.world (.of_inv hsafe.inv) _ _ hexec
    refine ⟨⟨hkept.inv, correct_update (fun j hj prog hprog => ?_) ?_⟩, hkept.le⟩
    · exact (hsafe.correct j prog hprog).mono ⟨hkept.le, hrely j hj, hkept.inv⟩
    · rintro prog ⟨⟩
      exact hk
  | env henv =>
    obtain ⟨hkept, hrely⟩ := hS.env hsafe.inv henv
    exact ⟨⟨hkept.inv, fun j prog hprog =>
      (hsafe.correct j prog hprog).mono ⟨hkept.le, hrely j, hkept.inv⟩⟩, hkept.le⟩
  | start hstart =>
    refine ⟨⟨hsafe.inv, correct_update (fun j _ => hsafe.correct j) ?_⟩, hS.refl _⟩
    rintro prog ⟨⟩
    exact hstarts _ hstart _ _ hsafe.inv
  | stop =>
    exact ⟨⟨hsafe.inv, correct_update (fun j _ => hsafe.correct j) (by rintro prog ⟨⟩)⟩, hS.refl _⟩

/-- Whatever the interleaving, the invariant holds, and the programs stay correct. -/
theorem Safe.run [hS : S.Lawful]
    (hstarts : ∀ prog, starts prog → ∀ i w, S.inv w → prog.Correct S i Q w)
    (hsafe : Safe S Q p) (h : Relation.ReflTransGen (Step S starts) p p') :
    Safe S Q p' ∧ S.le p.world p'.world := by
  induction h with
  | refl => exact ⟨hsafe, hS.refl _⟩
  | tail _ hstep ih =>
    obtain ⟨hsafe', hle⟩ := ih.1.step hstarts hstep
    exact ⟨hsafe', hS.trans ih.2 hle⟩

/-- A program that has ended leaves its postcondition behind. -/
theorem Safe.of_ret [hS : S.Lawful] (hsafe : Safe S Q p) {i : ℕ} {b : β}
    (h : p.threads i = some (.ret b)) : Q b p.world :=
  hsafe.correct i _ h p.world (.of_inv hsafe.inv)

/-! ## Undisturbed threads -/

/-- A thread that is not disturbed gets from one program to another. -/
inductive Alone (S : Semantics C R W) (i : ℕ) : Prog C R β → W → Prog C R β → W → Prop
  | refl {p : Prog C R β} {w : W} : Alone S i p w p w
  | call {c : C} {k : R c → Prog C R β} {w w' w'' : W} {p' : Prog C R β} (r : R c)
      (hexec : S.exec i w c r w') (hrest : Alone S i (k r) w' p' w'') :
      Alone S i (.call c k) w p' w''
  | env {p p' : Prog C R β} {w w'' : W} (w' : W) (henv : S.env w w')
      (hrest : Alone S i p w' p' w'') : Alone S i p w p' w''

/-- Such a thread may run in every pool. -/
theorem Alone.run {prog prog' : Prog C R β} {w w' : W} {i : ℕ} (h : Alone S i prog w prog' w')
    (threads : ℕ → Option (Prog C R β)) :
    Relation.ReflTransGen (Step S starts) ⟨w, Function.update threads i (some prog)⟩
      ⟨w', Function.update threads i (some prog')⟩ := by
  induction h with
  | refl => exact .refl
  | call r hexec _ ih =>
    refine .head (.call (Function.update_self ..) hexec) ?_
    rw [Function.update_idem]
    exact ih
  | env w' henv _ ih => exact .head (.env henv) ih

end Pool
