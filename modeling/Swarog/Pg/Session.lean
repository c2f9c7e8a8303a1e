import Swarog.Pg.Change
import Swarog.Pg.Transition

/-!
# Sessions that run statements

A component is a set of programs that database sessions run against shared data.
A program point says where a session is.  A statement is given by the program
point it is issued at, its guard on the shared data, the program point it leads
to and what it does to the data; `Programs.system` is the transition system of all
interleavings of the statements of any number of sessions.

Invariants come in two kinds.  What a session knows at its program point is kept
by its own statements and not disturbed by those of the others
(`Programs.local_invariant`).  The uncommitted versions of a session in a table
are described by its program point (`Programs.owes_reachable`).
-/

namespace Swarog.Pg

/-- A database session. -/
abbrev Sess := Nat

/-- A statement of a session.  Without a guard it is always possible, and without a change it
only reads. -/
structure Stmt (D P : Type) where
  before : P
  guard : D → Prop := fun _ => True
  after : D → P
  change : D → D := id

/-- The shared data, and where every session is. -/
structure World (D P : Type) where
  data : D
  pc : Sess → P

/-- Programs: the data and the program point they start with, and the statement
that a label stands for. -/
structure Programs (D P A : Type) where
  data : D
  idle : P
  stmt : Sess → A → Stmt D P

/-- A label is a statement of the form `f`, or it is not. -/
theorem exists_or_ne
    {α β A : Type}
    (f : α → β → A)
    (a : A) :
    (∃ x y, a = f x y) ∨ ∀ x y, a ≠ f x y := by
  by_cases h : ∃ x y, a = f x y
  · exact .inl h
  · exact .inr (fun x y ha => h ⟨x, y, ha⟩)

namespace Programs

variable {D P A : Type}

section System

variable (X : Programs D P A)

def enabled (w : World D P) (a : Sess × A) : Prop :=
  w.pc a.1 = (X.stmt a.1 a.2).before ∧ (X.stmt a.1 a.2).guard w.data

def effect (w : World D P) (a : Sess × A) : World D P where
  data := (X.stmt a.1 a.2).change w.data
  pc := Function.update w.pc a.1 ((X.stmt a.1 a.2).after w.data)

/-- All interleavings. -/
def system : TransitionSystem (World D P) (Sess × A) where
  start := ⟨X.data, fun _ => X.idle⟩
  enabled := X.enabled
  effect := X.effect

instance [DecidableEq P] [∀ t a d, Decidable ((X.stmt t a).guard d)]
    (w : World D P) (a : Sess × A) :
    Decidable (X.system.enabled w a) :=
  inferInstanceAs (Decidable (_ ∧ _))

end System

variable {X : Programs D P A} {w : World D P} {t u : Sess} {a : A}

theorem pc_own : (X.effect w (t, a)).pc t = (X.stmt t a).after w.data := Function.update_self t _ _

theorem pc_other (hu : u ≠ t) : (X.effect w (t, a)).pc u = w.pc u := Function.update_of_ne hu _ _

/-- What holds of the program points after a step: the actor has moved, the others have not. -/
theorem pc_effect
    (Q : Sess → P → Prop)
    (hown : Q t ((X.stmt t a).after w.data))
    (hother : ∀ u, u ≠ t → Q u (w.pc u))
    (u : Sess) :
    Q u ((X.effect w (t, a)).pc u) := by
  by_cases hu : u = t
  · subst hu
    rw [pc_own]
    exact hown
  · rw [pc_other hu]
    exact hother u hu

section Rules

variable {G : World D P → Sess × A → Prop}

/-- An invariant of the shared data together with what the sessions know at their program
points. -/
theorem joint_invariant {I : D → Prop} {L : D → Sess → P → Prop} (hstart : I X.data)
    (hidle : ∀ t, L X.data t X.idle)
    (hstep : ∀ w t a, X.system.Reachable G w → G w (t, a) → X.enabled w (t, a) → I w.data →
      (∀ u, L w.data u (w.pc u)) → L w.data t (X.stmt t a).before →
        I ((X.stmt t a).change w.data) ∧
          L ((X.stmt t a).change w.data) t ((X.stmt t a).after w.data) ∧
          ∀ u, u ≠ t → L ((X.stmt t a).change w.data) u (w.pc u))
    (h : X.system.Reachable G w) : I w.data ∧ ∀ t, L w.data t (w.pc t) := by
  refine h.invariant ⟨hstart, hidle⟩ ?_
  rintro w ⟨t, a⟩ hr ⟨hI, hL⟩ hG en
  obtain ⟨hdata, hown, hother⟩ := hstep w t a hr hG en hI hL (en.1 ▸ hL t)
  exact ⟨hdata, pc_effect (L ((X.stmt t a).change w.data)) hown hother⟩

/-- What a session knows at its program point: its own statements keep it, and
those of the others do not disturb it. -/
theorem local_invariant
    {L : D → Sess → P → Prop}
    (hstart : ∀ t, L X.data t X.idle)
    (hown : ∀ w t a, X.system.Reachable G w → G w (t, a) → X.enabled w (t, a) →
      L w.data t (X.stmt t a).before → L ((X.stmt t a).change w.data) t ((X.stmt t a).after w.data))
    (hother : ∀ w t a u, X.system.Reachable G w → G w (t, a) → X.enabled w (t, a) → u ≠ t →
      L w.data u (w.pc u) → L ((X.stmt t a).change w.data) u (w.pc u))
    (h : X.system.Reachable G w) :
    ∀ t, L w.data t (w.pc t) := by
  refine (joint_invariant (I := fun _ => True) (L := L) trivial hstart ?_ h).2
  intro w t a hr hG en _ hL hbefore
  exact ⟨trivial, hown w t a hr hG en hbefore, fun u hu => hother w t a u hr hG en hu (hL u)⟩

/-- What holds at every program point that a session comes to. -/
theorem pc_invariant (L : P → Prop) (hidle : L X.idle)
    (hown : ∀ w t a, X.system.Reachable G w → G w (t, a) → X.enabled w (t, a) →
      L (X.stmt t a).before → L ((X.stmt t a).after w.data))
    (h : X.system.Reachable G w) : ∀ t, L (w.pc t) :=
  local_invariant (L := fun _ _ pc => L pc) (fun _ => hidle) hown (fun _ _ _ _ _ _ _ _ hl => hl) h

/-- What is read off the program point of a session after a step was there before,
unless the step has brought it there. -/
theorem pc_read
    {β : Type}
    (f : P → Option β)
    {b : β}
    {Q : Prop}
    (en : X.enabled w (t, a))
    (hafter : f ((X.stmt t a).after w.data) = some b → f (X.stmt t a).before = some b ∨ Q)
    (h : f ((X.effect w (t, a)).pc u) = some b) :
    f (w.pc u) = some b ∨ (u = t ∧ Q) := by
  by_cases hu : u = t
  · subst hu
    rw [pc_own] at h
    rcases hafter h with hold | hq
    · rw [show w.pc u = _ from en.1]
      exact .inl hold
    · exact .inr ⟨rfl, hq⟩
  · rw [pc_other hu] at h
    exact .inl h

/-- An invariant of the shared data. -/
theorem data_invariant {I : D → Prop} (hstart : I X.data)
    (hstep : ∀ w t a, X.system.Reachable G w → G w (t, a) → X.enabled w (t, a) → I w.data →
      I ((X.stmt t a).change w.data))
    (h : X.system.Reachable G w) : I w.data := by
  refine h.invariant hstart ?_
  rintro w ⟨t, a⟩ hr hI hG en
  exact hstep w t a hr hG en hI

/-- Ids that sessions draw for the rows they are about to insert: `used` are the
ids drawn so far.  No id is drawn twice. -/
theorem fresh_ids {ι : Type} (used : D → List ι) (drawn : P → Option ι)
    (hidle : drawn X.idle = none)
    (hgrow : ∀ t a d e, (X.stmt t a).guard d → e ∈ used d → e ∈ used ((X.stmt t a).change d))
    (hdraw : ∀ t a d e, (X.stmt t a).guard d → drawn ((X.stmt t a).after d) = some e →
      drawn (X.stmt t a).before = some e ∨ (e ∉ used d ∧ e ∈ used ((X.stmt t a).change d)))
    (h : X.system.Reachable G w) :
    (∀ t e, drawn (w.pc t) = some e → e ∈ used w.data) ∧
      ∀ t u e, drawn (w.pc t) = some e → drawn (w.pc u) = some e → t = u := by
  refine h.invariant ?_ ?_
  · have hnone : ∀ e, drawn X.idle ≠ some e := by
      intro e he
      rw [hidle] at he
      cases he
    exact ⟨fun t e he => absurd he (hnone e), fun t u e he _ => absurd he (hnone e)⟩
  rintro w ⟨t, a⟩ _ ⟨hmem, hinj⟩ _ en
  have hread : ∀ u e, drawn ((X.effect w (t, a)).pc u) = some e →
      drawn (w.pc u) = some e ∨ (u = t ∧ e ∉ used w.data ∧ e ∈ used ((X.stmt t a).change w.data)) :=
    fun u e => pc_read drawn en (hdraw t a w.data e en.2)
  constructor
  · intro u e he
    rcases hread u e he with hold | ⟨-, -, hnew⟩
    · exact hgrow t a w.data e en.2 (hmem u e hold)
    · exact hnew
  · intro u v e hu hv
    rcases hread u e hu with hold | ⟨rfl, hfresh, -⟩ <;>
      rcases hread v e hv with hold' | ⟨rfl, hfresh', -⟩
    · exact hinj u v e hold hold'
    · exact absurd (hmem u e hold) hfresh'
    · exact absurd (hmem v e hold') hfresh
    · rfl

end Rules

section Tables

variable {κ ρ : Type} [DecidableEq κ]
variable {G : World D P → Sess × A → Prop}

/-- The uncommitted versions of every session in a table. -/
theorem owes_reachable
    (T : D → Table κ Sess ρ) (H : P → Holding κ ρ)
    (hstart : ∀ t, (T X.data).Owes t (H X.idle))
    (hstep : ∀ t a d, (X.stmt t a).guard d → Table.Step (T d) (some t) (T ((X.stmt t a).change d)))
    (hown : ∀ w t a, X.system.Reachable G w → X.enabled w (t, a) →
      (T w.data).Owes t (H (X.stmt t a).before) →
        (T ((X.stmt t a).change w.data)).Owes t (H ((X.stmt t a).after w.data)))
    (h : X.system.Reachable G w) :
    ∀ t, (T w.data).Owes t (H (w.pc t)) := by
  refine local_invariant (L := fun d t p => (T d).Owes t (H p)) hstart ?_ ?_ h
  · intro w t a hr _ en
    exact hown w t a hr en
  · intro w t a u _ _ en hu ho
    exact ho.of_undisturbed ((hstep t a w.data en.2).undisturbed (by simpa using Ne.symm hu))

/-- The changes of every session in a table. -/
theorem made_reachable {ε : Type} (T : D → Table κ Sess ρ) (cs : P → List (Change κ ρ ε))
    (hstart : T X.data = Table.empty) (hidle : cs X.idle = [])
    (hedits : ∀ w t a, X.system.Reachable G w → X.enabled w (t, a) →
      (T w.data).Edits t (cs (X.stmt t a).before) (T ((X.stmt t a).change w.data))
        (cs ((X.stmt t a).after w.data)))
    (h : X.system.Reachable G w) : ∀ t, (T w.data).Made t (cs (w.pc t)) := by
  refine local_invariant (L := fun d t p => (T d).Made t (cs p)) ?_ ?_ ?_ h
  · intro t
    rw [hstart, hidle]
    exact Table.made_empty
  · intro w t a hr _ en
    exact (hedits w t a hr en).made
  · intro w t a u hr _ en hu hm
    exact hm.of_undisturbed ((hedits w t a hr en).step.undisturbed (by simpa using Ne.symm hu))

end Tables

end Programs
end Swarog.Pg
