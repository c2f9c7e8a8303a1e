import Mathlib

/-!
# Guarded transition systems

A concurrent component is presented by labelled steps.  The label of a step
carries the data that the step observed, `enabled` is the guard of the step and
`effect` is the state it leaves behind.  Every interleaving of the parties is a
list of labels.

Runs are taken under an additional step condition `G`, so that one system can
be studied under several disciplines (all steps, steps without garbage
collection, steps that avoid one race).  The module provides the reachability
relation, its invariant rule, its monotonicity in `G`, an executable runner used to
exhibit concrete runs, and the interleavings of two systems that share nothing
(`beside`).
-/

namespace Swarog

universe u v

/-- A labelled transition system given by guards and effects. -/
structure TransitionSystem (S : Type u) (A : Type v) where
  start : S
  enabled : S → A → Prop
  effect : S → A → S

namespace TransitionSystem

variable {S : Type u} {A : Type v}
variable (T : TransitionSystem S A)

/-- The trivial step condition. -/
def anyStep : S → A → Prop := fun _ _ => True

/-- `Reaches G s s'`: a finite run leads from `s` to `s'`, every step of which
is enabled and meets `G` in the state it is taken from. -/
inductive Reaches (G : S → A → Prop) : S → S → Prop
  | refl (s : S) : Reaches G s s
  | tail {s t : S} (a : A)
      (run : Reaches G s t)
      (cond : G t a)
      (en : T.enabled t a) :
      Reaches G s (T.effect t a)

/-- States reached from the start state. -/
def Reachable (G : S → A → Prop) (s : S) : Prop := T.Reaches G T.start s

variable {T}
variable {G H : S → A → Prop}

theorem Reaches.trans
    {s t r : S}
    (h₁ : T.Reaches G s t)
    (h₂ : T.Reaches G t r) :
    T.Reaches G s r := by
  induction h₂ with
  | refl => exact h₁
  | tail a _ cond en ih => exact Reaches.tail a ih cond en

/-- A run under a step condition that, along it, implies another one. -/
theorem Reachable.mono
    {s : S}
    (hGH : ∀ r a, T.Reachable G r → G r a → T.enabled r a → H r a)
    (h : T.Reachable G s) :
    T.Reachable H s := by
  generalize hstart : T.start = s₀ at h
  induction h with
  | refl =>
    exact Reaches.refl _
  | tail a run cond en ih =>
    exact Reaches.tail a ih (hGH _ a run cond en) en

/-- What every step preserves is preserved by every run. -/
@[elab_as_elim]
theorem Reaches.preserves
    {I : S → Prop}
    (hstep : ∀ s a, I s → G s a → T.enabled s a → I (T.effect s a))
    {s t : S}
    (h : T.Reaches G s t)
    (hs : I s) :
    I t := by
  induction h with
  | refl => exact hs
  | tail a _ cond en ih => exact hstep _ a ih cond en

/-- The invariant rule: an assertion that holds at the start and is preserved
by every step from a reachable state holds in every reachable state. -/
@[elab_as_elim]
theorem Reachable.invariant
    {I : S → Prop}
    (hstart : I T.start)
    (hstep : ∀ s a, T.Reachable G s → I s → G s a → T.enabled s a → I (T.effect s a))
    {s : S}
    (h : T.Reachable G s) :
    I s := by
  unfold Reachable at h hstep
  generalize T.start = s₀ at h hstart hstep
  induction h with
  | refl => exact hstart
  | tail a run cond en ih => exact hstep _ a run ih cond en

section Execution

variable (T)
variable [∀ s a, Decidable (T.enabled s a)]
variable (G)
variable [∀ s a, Decidable (G s a)]

/-- Run a list of labels, stopping at the first one that is not enabled or
breaks the step condition. -/
def exec : S → List A → Option S
  | s, [] => some s
  | s, a :: rest => if G s a ∧ T.enabled s a then exec (T.effect s a) rest else none

variable {T}

/-- A successful execution is a run. -/
theorem exec_reaches
    {s t : S}
    {labels : List A}
    (h : T.exec G s labels = some t) :
    T.Reaches G s t := by
  induction labels generalizing s with
  | nil =>
    simp only [exec, Option.some.injEq] at h
    subst h
    exact Reaches.refl s
  | cons a _ ih =>
    simp only [exec] at h
    split at h
    · rename_i hen
      have hfirst : T.Reaches G s (T.effect s a) := Reaches.tail a (Reaches.refl s) hen.1 hen.2
      exact hfirst.trans (ih h)
    · cases h

/-- The final state of a list of labels that can all be executed. -/
def final
    (labels : List A)
    (h : (T.exec G T.start labels).isSome) :
    S :=
  (T.exec G T.start labels).get h

theorem reachable_final
    (labels : List A)
    (h : (T.exec G T.start labels).isSome) :
    T.Reachable G (final G labels h) :=
  exec_reaches G (Option.some_get h).symm

/-- A list of labels whose execution ends in a state that satisfies `f` exhibits a
reachable one. -/
theorem exec_exhibits
    (labels : List A)
    {f : S → Bool}
    (h : (T.exec G T.start labels).any f = true) :
    ∃ s, T.Reachable G s ∧ f s = true := by
  obtain ⟨s, hs, hf⟩ := (Option.any_eq_true _ _).1 h
  exact ⟨s, exec_reaches G hs, hf⟩

/-- Two runs, the second one from the end of the first. -/
theorem exec_exhibits_later
    (labels later : List A)
    {f g : S → Bool}
    (h : (T.exec G T.start labels).any (fun s => f s && (T.exec G s later).any g) = true) :
    ∃ s s', T.Reachable G s ∧ f s = true ∧ T.Reaches G s s' ∧ g s' = true := by
  obtain ⟨s, hs, hf⟩ := (Option.any_eq_true _ _).1 h
  obtain ⟨hf, hlater⟩ := Bool.and_eq_true_iff.1 hf
  obtain ⟨s', hs', hg⟩ := (Option.any_eq_true _ _).1 hlater
  exact ⟨s, s', exec_reaches G hs, hf, exec_reaches G hs', hg⟩

end Execution

instance (s : S) (a : A) : Decidable (anyStep s a) := inferInstanceAs (Decidable True)

section Beside

universe u' v'

variable {S' : Type u'} {A' : Type v'}

/-- Two systems that share nothing, side by side. -/
def beside
    (T : TransitionSystem S A)
    (U : TransitionSystem S' A') :
    TransitionSystem (S × S') (A ⊕ A') where
  start := (T.start, U.start)
  enabled s
    | .inl a => T.enabled s.1 a
    | .inr b => U.enabled s.2 b
  effect s
    | .inl a => (T.effect s.1 a, s.2)
    | .inr b => (s.1, U.effect s.2 b)

/-- A step condition for each of them. -/
def eachStep (G : S → A → Prop) (K : S' → A' → Prop) : S × S' → A ⊕ A' → Prop
  | s, .inl a => G s.1 a
  | s, .inr b => K s.2 b

variable {U : TransitionSystem S' A'} {K : S' → A' → Prop} {s s' : S × S'}

theorem Reaches.fst (h : (T.beside U).Reaches (eachStep G K) s s') : T.Reaches G s.1 s'.1 := by
  induction h with
  | refl => exact Reaches.refl _
  | tail l _ cond en ih =>
    cases l with
    | inl a => exact Reaches.tail a ih cond en
    | inr => exact ih

theorem Reaches.snd (h : (T.beside U).Reaches (eachStep G K) s s') : U.Reaches K s.2 s'.2 := by
  induction h with
  | refl => exact Reaches.refl _
  | tail l _ cond en ih =>
    cases l with
    | inl => exact ih
    | inr b => exact Reaches.tail b ih cond en

instance
    [∀ s a, Decidable (T.enabled s a)] [∀ s a, Decidable (U.enabled s a)]
    (s : S × S') (l : A ⊕ A') :
    Decidable ((T.beside U).enabled s l) := by
  cases l <;> dsimp only [beside] <;> infer_instance

instance
    [∀ s a, Decidable (G s a)] [∀ s a, Decidable (K s a)]
    (s : S × S') (l : A ⊕ A') :
    Decidable (eachStep G K s l) := by
  cases l <;> dsimp only [eachStep] <;> infer_instance

end Beside

end TransitionSystem
end Swarog
