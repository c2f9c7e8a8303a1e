import Swarog.Inventory.Characters

/-!
# The purge of the inventory

`Holdings::grant` reads the tombstone and adds to the holdings of the player by statements of
their own.  It is the only writer of player-owned holdings besides the sweep.
-/

namespace Swarog.Inventory

open Pg

variable {G : World Data Pc → Sess × Act → Prop}
variable {w : World Data Pc} {t : Sess} {a : Act} {d : Data}

/-- The player for whom a call has found no tombstone. -/
def Pc.adding : Pc → Option Uuid
  | .buy _ _ (.cleared p) => some p
  | _ => none

/-- The inventory as a service with a purge. -/
def adder : Sweeper.Adder Data Pc HoldingKey Int where
  tables := Data.tables
  point := Pc.point
  adding := Pc.adding

theorem point_ofPoint (q : Option (Sweeper.Point HoldingKey Int)) :
    (Pc.ofPoint q).point = q ∧ (Pc.ofPoint q).adding = none := by
  cases q <;> exact ⟨rfl, rfl⟩

theorem does (hg : (stmt t a).guard d) :
    Sweeper.Does policy t d.tables (stmt t a).before.point ((stmt t a).change d).tables
      ((stmt t a).after d).point := by
  cases a with
  | purge m =>
    simp only [stmt, Stmt.along, (point_ofPoint _).1]
    exact .move m hg
  | commit _ e => cases e <;> exact .commit _
  | grantError | refuse | fail => exact .rollback _
  | _ => exact .rows _ (holdings_edits hg).step

/-- Holdings of players appear where a call grants them. -/
theorem added {k : HoldingKey} {q : Int} {p : Uuid} (h : system.Reachable G w)
    (en : programs.enabled w (t, a))
    (hrow : ((stmt t a).change w.data).holdings.committed k = some q)
    (hown : policy.owns p k q = true) :
    (∃ q', w.data.holdings.committed k = some q' ∧ policy.owns p k q' = true) ∨
      (stmt t a).before.adding = some p := by
  have hplayer : k.owner = .player p := of_decide_eq_true hown
  have hsame : ((stmt t a).change w.data).holdings.committed k = w.data.holdings.committed k →
      ∃ q', w.data.holdings.committed k = some q' ∧ policy.owns p k q' = true :=
    fun heq => ⟨q, heq.symm.trans hrow, hown⟩
  cases a with
  | buyGrant _ b p' =>
    by_cases hk : k = ⟨.player p', b.item⟩
    · subst hk
      cases hplayer
      exact .inr rfl
    · exact .inl (hsame ((Table.committed_put _ _ _ _).trans (if_neg hk)))
  | commit pc e =>
    refine .inl ?_
    rcases (made_before h en).commit_cases k with ⟨hkept, -⟩ | ⟨c, hc, rfl, -, hnew⟩
    · exact hsame hkept
    · have hnew : c.new = some q := hnew.symm.trans hrow
      cases pc with
      | grant _ st =>
        cases st with
        | written =>
          cases List.mem_singleton.1 hc
          cases hplayer
        | _ => cases hc
      | wipe _ st =>
        cases st with
        | deleting =>
          obtain ⟨_, -, rfl⟩ := List.mem_map.1 hc
          cases hnew
        | _ => cases hc
      | purge q' =>
        cases q' with
        | planted => cases hc
        | sweep =>
          obtain ⟨_, -, rfl⟩ := List.mem_map.1 hc
          cases hnew
      | _ => cases hc
  | grantStarter => exact .inl (hsame (Table.committed_write _ _ _ _ _))
  | wipeRow => exact .inl (hsame (Table.committed_deleteWhere _ _ _ _ _))
  | purge m => exact .inl (hsame (m.committed _))
  | grantError | refuse | fail => exact .inl (hsame (Table.committed_rollback _ _ _))
  | _ => exact .inl (hsame rfl)

theorem lawful : adder.Lawful policy programs (fun _ => ([] : List Empty)) where
  start := rfl
  idle := rfl
  idle_adds := rfl
  does := fun _ _ _ => does
  apart := by
    intro pc _ hadd
    cases pc with
    | purge => cases hadd
    | _ => rfl
  made := by
    intro _ w h t _ hq
    have hm := made_reachable h t
    cases hpc : w.pc t with
    | purge =>
      rw [hpc] at hq hm
      cases hq
      exact hm
    | _ =>
      rw [hpc] at hq
      cases hq
  adds := by
    intro t a d p hg hadd
    cases a with
    | buyCheck =>
      cases hadd
      exact .inr ⟨rfl, hg.2⟩
    | purge m =>
      have hadd : (Pc.ofPoint ((m.stmt policy t).after d.tables)).adding = some p := hadd
      rw [(point_ofPoint _).2] at hadd
      cases hadd
    | _ => cases hadd
  added := fun _ _ _ _ _ _ _ h en hrow hown => added h en hrow hown

end Swarog.Inventory
