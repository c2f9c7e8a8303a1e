import Swarog.Characters.Journal

/-!
# The purge of characters

A create reads the tombstone under the lock of the player and inserts the row later in the
same transaction; the plant and the sweep do not take this lock.
-/

namespace Swarog.Characters

open Pg

variable {G : World Data Pc → Sess × Act → Prop}
variable {w : World Data Pc} {t : Sess} {a : Act} {d : Data}

/-- The player for whom a create has found no tombstone. -/
def Pc.adding : Pc → Option Uuid
  | .create _ _ st => caller st
  | _ => none

/-- Characters as a service with a purge. -/
def adder : Sweeper.Adder Data Pc Uuid CharacterRow where
  tables := Data.tables
  point := Pc.point
  adding := Pc.adding

theorem point_ofPoint (q : Option (Sweeper.Point Uuid CharacterRow)) :
    (Pc.ofPoint q).point = q ∧ (Pc.ofPoint q).adding = none := by
  cases q <;> exact ⟨rfl, rfl⟩

theorem does (hg : (stmt t a).guard d) :
    Sweeper.Does policy t d.tables (stmt t a).before.point ((stmt t a).change d).tables
      ((stmt t a).after d).point := by
  cases a with
  | purge m =>
    simp only [stmt, Stmt.along, (point_ofPoint _).1]
    exact .move m hg
  | commit => exact .commit _
  | refuse | fail => exact .rollback _
  | _ => exact .rows _ (characters_edits hg).step

theorem adding_of_admitted {pc : Pc} {me : Uuid} {cap : Nat} (h : pc.admitted = some (me, cap)) :
    pc.adding = some me := by
  cases pc with
  | create _ _ st => cases st <;> cases h <;> rfl
  | _ => cases h

/-- Characters appear where a create commits. -/
theorem added {id p : Uuid} {row : CharacterRow} (h : system.Reachable G w)
    (en : programs.enabled w (t, a))
    (hrow : ((stmt t a).change w.data).characters.committed id = some row)
    (hown : policy.owns p id row = true) :
    (∃ row', w.data.characters.committed id = some row' ∧ policy.owns p id row' = true) ∨
      (stmt t a).before.adding = some p := by
  rcases appears_step (moved_step h en) hrow with hold | ⟨-, _, hadmitted⟩
  · exact .inl ⟨row, hold, hown⟩
  · exact .inr ((adding_of_admitted hadmitted).trans (congrArg some (of_decide_eq_true hown)))

theorem lawful : adder.Lawful policy programs (fun m => [deletedEvent m.key m.row]) where
  start := rfl
  idle := rfl
  idle_adds := rfl
  does := fun _ _ _ => does
  apart := by
    intro pc _ hadd
    cases pc with
    | purge => cases hadd
    | _ => rfl
  made := by
    intro _ w h t _ hq
    have hm := made_reachable h t
    cases hpc : w.pc t with
    | purge =>
      rw [hpc] at hq hm
      cases hq
      exact hm
    | _ =>
      rw [hpc] at hq
      cases hq
  adds := by
    intro t a d p hg hadd
    cases a with
    | checkTombstone =>
      cases hadd
      exact .inr ⟨rfl, hg.2⟩
    | purge m =>
      have hadd : (Pc.ofPoint ((m.stmt policy t).after d.tables)).adding = some p := hadd
      rw [(point_ofPoint _).2] at hadd
      cases hadd
    | _ => first | exact .inl hadd | cases hadd
  added := fun _ _ _ _ _ _ _ h en hrow hown => added h en hrow hown

end Swarog.Characters
