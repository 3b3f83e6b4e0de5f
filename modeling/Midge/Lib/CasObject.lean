import Mathlib.Data.List.Chain
import Mathlib.Data.List.Infix
import Mathlib.Tactic

/-!
# An object with conditional writes

An object of a store is written under a precondition: that it is absent, or that it is still
the version that has been read. Every version has an identity of its own. A request that has
been sent may arrive at any later time, more than once, or never (`CasObject.Lands`).

Suppose that a writer who replaces a version `a` by `b` makes sure that `R a b`, and one who
creates the object that `R₀` (`CasObject.Guarded`). A request only takes effect on the version
that its sender has read, however late it arrives. So the versions form one chain of `R`.
-/

/-- When a write takes effect. -/
inductive Precondition
  | ifAbsent
  | ifMatch (id : ℕ)
  deriving DecidableEq, Repr

/-- An object, with all that has been written to it. -/
structure CasObject (α : Type*) where
  /-- The versions and their identities, from the oldest. -/
  versions : List (α × ℕ) := []
  /-- The requests that have been sent. -/
  sent : List (Precondition × α) := []

namespace CasObject

open List

variable {α : Type*} (o : CasObject α)

/-- What a read finds. -/
def current : Option (α × ℕ) := o.versions.getLast?

/-- The precondition is met. -/
def Accepts : Precondition → Prop
  | .ifAbsent => o.current = none
  | .ifMatch id => ∃ a, o.current = some (a, id)

/-- Send a request. -/
def submit (condition : Precondition) (a : α) : CasObject α :=
  { o with sent := (condition, a) :: o.sent }

/-- A new version. -/
def write (a : α) (id : ℕ) : CasObject α := { o with versions := o.versions ++ [(a, id)] }

/-- A request arrives, and takes effect. -/
inductive Lands (o : CasObject α) : CasObject α → Prop
  | intro {condition : Precondition} {a : α} {id : ℕ} (hsent : (condition, a) ∈ o.sent)
      (haccepts : o.Accepts condition) (hfresh : ∀ v ∈ o.versions, v.2 ≠ id) :
      Lands o (o.write a id)

/-- The versions are kept, and so are the requests. -/
structure Le (o o' : CasObject α) : Prop where
  versions : o.versions <+: o'.versions
  sent : ∀ r ∈ o.sent, r ∈ o'.sent

/-- Every request has been checked against the version that it is to replace, and the
    versions form a chain. -/
structure Guarded (R₀ : α → Prop) (R : α → α → Prop) (o : CasObject α) : Prop where
  identities : (o.versions.map Prod.snd).Nodup
  absent : ∀ a, (.ifAbsent, a) ∈ o.sent → R₀ a
  replaced : ∀ id b, (.ifMatch id, b) ∈ o.sent → ∃ a, (a, id) ∈ o.versions ∧ R a b
  first : ∀ a, o.versions.head? = some a → R₀ a.1
  chain : o.versions.IsChain fun a b => R a.1 b.1

variable {o} {o' o'' : CasObject α} {R₀ : α → Prop} {R : α → α → Prop}

theorem Le.refl (o : CasObject α) : Le o o := ⟨List.prefix_rfl, fun _ => id⟩

theorem Le.trans (h : Le o o') (h' : Le o' o'') : Le o o'' :=
  ⟨h.versions.trans h'.versions, fun r hr => h'.sent r (h.sent r hr)⟩

theorem Le.mem (h : Le o o') {v : α × ℕ} (hv : v ∈ o.versions) : v ∈ o'.versions :=
  h.versions.subset hv

theorem le_submit (condition : Precondition) (a : α) : Le o (o.submit condition a) :=
  ⟨prefix_rfl, fun _ hr => mem_cons_of_mem _ hr⟩

theorem le_write (a : α) (id : ℕ) : Le o (o.write a id) := ⟨List.prefix_append _ _, fun _ hr => hr⟩

theorem Lands.le (h : Lands o o') : Le o o' := by
  cases h with
  | intro => exact le_write _ _

theorem mem_of_current {v : α × ℕ} (h : o.current = some v) : v ∈ o.versions :=
  mem_of_getLast? h

/-- An identity stands for one version. -/
theorem Guarded.eq_of_mem (h : Guarded R₀ R o) {a b : α} {id : ℕ} (ha : (a, id) ∈ o.versions)
    (hb : (b, id) ∈ o.versions) : a = b :=
  congrArg Prod.fst (inj_on_of_nodup_map h.identities ha hb rfl)

theorem Guarded.empty : Guarded R₀ R ({} : CasObject α) :=
  ⟨nodup_nil, by simp, by simp, by simp, List.IsChain.nil⟩

section

variable (h : Guarded R₀ R o)

include h

/-- A request that creates the object. -/
theorem Guarded.submit_ifAbsent {a : α} (ha : R₀ a) :
    Guarded R₀ R (o.submit .ifAbsent a) := by
  refine ⟨h.identities, fun b hb => ?_, fun id b hb => ?_, h.first, h.chain⟩
  · rcases mem_cons.1 hb with hb | hb
    · cases hb
      exact ha
    · exact h.absent b hb
  · rcases mem_cons.1 hb with hb | hb
    · cases hb
    · exact h.replaced id b hb

/-- A request that replaces a version. -/
theorem Guarded.submit_ifMatch {a b : α} {id : ℕ} (ha : (a, id) ∈ o.versions) (hR : R a b) :
    Guarded R₀ R (o.submit (.ifMatch id) b) := by
  refine ⟨h.identities, fun c hc => ?_, fun id' c hc => ?_, h.first, h.chain⟩
  · rcases mem_cons.1 hc with hc | hc
    · cases hc
    · exact h.absent c hc
  · rcases mem_cons.1 hc with hc | hc
    · cases hc
      exact ⟨a, ha, hR⟩
    · exact h.replaced id' c hc

/-- A request that arrives replaces the version that it was checked against. -/
theorem Guarded.lands (hlands : Lands o o') : Guarded R₀ R o' := by
  cases hlands with
  | @intro condition b id hsent haccepts hfresh =>
    have hids : ((o.versions ++ [(b, id)]).map Prod.snd).Nodup := by
      rw [map_append, nodup_append]
      refine ⟨h.identities, by simp, fun x hx y hy => ?_⟩
      obtain ⟨v, hv, rfl⟩ := mem_map.1 hx
      rw [map_cons, map_nil, mem_singleton] at hy
      exact hy ▸ hfresh v hv
    have hreplaced : ∀ id' c, (.ifMatch id', c) ∈ o.sent →
        ∃ a, (a, id') ∈ o.versions ++ [(b, id)] ∧ R a c := fun id' c hc => by
      obtain ⟨a, ha, hR⟩ := h.replaced id' c hc
      exact ⟨a, mem_append_left _ ha, hR⟩
    cases condition with
    | ifAbsent =>
      have hnil : o.versions = [] := getLast?_eq_none_iff.1 haccepts
      refine ⟨hids, h.absent, hreplaced, fun a ha => ?_, ?_⟩
      · simp only [write, hnil, nil_append, head?_cons, Option.some.injEq] at ha
        rw [← ha]
        exact h.absent b hsent
      · simp only [write, hnil, nil_append]
        exact List.IsChain.singleton _
    | ifMatch id' =>
      obtain ⟨a, ha⟩ := haccepts
      obtain ⟨a', ha', hR⟩ := h.replaced id' b hsent
      have heq : a = a' := h.eq_of_mem (mem_of_current ha) ha'
      have hne : o.versions ≠ [] := ne_nil_of_mem ha'
      refine ⟨hids, h.absent, hreplaced, fun v hv => ?_, ?_⟩
      · simp only [write, head?_append_of_ne_nil _ hne] at hv
        exact h.first v hv
      · refine isChain_append.2 ⟨h.chain, List.IsChain.singleton _, fun x hx y hy => ?_⟩
        have hx : x = (a, id') := Option.some.inj (hx.symm.trans ha)
        simp only [head?_cons, Option.mem_def, Option.some.injEq] at hy
        rw [hx, ← hy, heq]
        exact hR

/-- What holds of no versions, and is kept by every further version that follows the one
    before it, holds of every beginning of the history. -/
theorem Guarded.history_induction {P : List (α × ℕ) → Prop} (hnil : P [])
    (hfirst : ∀ a, R₀ a.1 → P [a])
    (hstep : ∀ l a b, P (l ++ [a]) → R a.1 b.1 → P (l ++ [a] ++ [b])) :
    ∀ l, l <+: o.versions → P l := by
  intro l
  induction l using reverseRecOn with
  | nil => exact fun _ => hnil
  | append_singleton l b ih =>
    intro hl
    obtain ⟨rest, hrest⟩ := hl
    have hchain : (l ++ [b]).IsChain fun a b => R a.1 b.1 :=
      (isChain_append.1 (hrest ▸ h.chain)).1
    rcases eq_nil_or_concat l with rfl | ⟨l', a, rfl⟩
    · exact hfirst b (h.first b (by simp [← hrest]))
    · rw [concat_eq_append] at *
      refine hstep l' a b (ih ⟨[b] ++ rest, by rw [← hrest]; simp⟩) ?_
      exact (isChain_append.1 hchain).2.2 a (by simp) b (by simp)

/-- A version is the first one, or follows another. -/
theorem Guarded.of_mem {v : α × ℕ} (hv : v ∈ o.versions) : R₀ v.1 ∨ ∃ a, R a v.1 := by
  obtain ⟨before, after, heq⟩ := append_of_mem hv
  rcases eq_nil_or_concat before with rfl | ⟨l, a, rfl⟩
  · exact .inl (h.first v (by simp [heq]))
  · have hchain := h.chain
    rw [heq, concat_eq_append, isChain_append] at hchain
    exact .inr ⟨a.1, hchain.2.2 a (by simp) v (by simp)⟩

/-- Of two versions the later one is related to the earlier one by every transitive relation
    that `R` implies. -/
theorem Guarded.pairwise {T : α → α → Prop} (hR : ∀ a b, R a b → T a b)
    (htrans : ∀ a b c, T a b → T b c → T a c) : o.versions.Pairwise fun a b => T a.1 b.1 := by
  have : IsTrans (α × ℕ) fun a b => T a.1 b.1 := ⟨fun a b c => htrans a.1 b.1 c.1⟩
  exact (h.chain.imp fun {a b} hab => hR a.1 b.1 hab).pairwise

end

end CasObject
