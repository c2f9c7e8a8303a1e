import Swarog.Wallet.Calls

/-!
# Purged players

The tombstone check of a movement is a plain read.  A movement that passed it
before the tombstone was planted may still be running when the sweep erases the
player, and may create a balance row that the sweep has not seen.  Then money of
a swept player reappears (`swept_player_gets_money`).

`Fenced` is the discipline under which this cannot happen: no balance row of a
player is being inserted when a sweep starts to delete the player's rows, and
none is inserted from then on.  Movements that update or merge into existing
rows, replays and debits may race with the sweep in any way.  Under it the rows
of a swept player are gone for good (`swept_player_has_nothing`).
-/

namespace Swarog.Wallet

open Pg Table TransitionSystem Function Option

/-- Sweeps in progress. -/
def Pc.IsSweep : Pc → Prop
  | .sweepOpen _ | .sweeping _ _ _ | .swept => True
  | _ => False

namespace State

/-- A sweep has begun to delete the rows of `p`, and has not been rolled back. -/
def Erasing (s : State) (p : Uuid) : Prop :=
  s.Swept p ∨
    (s.purged.pending p).any (fun held =>
      held.2.any PurgedRow.swept || (s.pc held.1).current == some p) = true

instance (s : State) (p : Uuid) : Decidable (s.Erasing p) := inferInstanceAs (Decidable (_ ∨ _))

/-- No balance row of a player is being inserted when a sweep starts to delete
the player's rows, and none is inserted from then on.  The check leaves the movements that
have read the tombstone before it was planted: `Sound.not_checked_of_erasing`. -/
def Fenced (s : State) : Act → Prop
  | .insert _ _ p _ => ¬ s.Erasing p
  | .deleteStart _ _ p _ =>
    ∀ k ∈ s.balances.keys, k.1 = p → s.balances.committed k = none → s.balances.pending k = none
  | _ => True

instance (s : State) (a : Act) : Decidable (s.Fenced a) := by
  induction a using Act.casesOn <;> dsimp only [Fenced] <;> infer_instance

/-- `t` has deleted the balance rows of `p`, except for those in `todo`. -/
def DeletedBut (s : State) (t : Sess) (p : Uuid) (todo : List (Uuid × String)) : Prop :=
  ∀ c, s.balances.committed (p, c) ≠ none →
    (p, c) ∈ todo ∨ s.balances.pending (p, c) = some (t, none)

/-- `t` has re-owned the ledger rows of `p`, except for those in `todo`. -/
def ReownedBut (s : State) (t : Sess) (p : Uuid) (todo : List String) : Prop :=
  ∀ k row, s.ledger.committed k = some row → row.player = p →
    k ∈ todo ∨ s.ledger.pending k = some (t, some { row with player := Uuid.nil })

/-- How far a sweep has come with its current player. -/
def Cleaned (s : State) (t : Sess) : Pc → Prop
  | .sweeping _ _ (.deleting p todo) => s.DeletedBut t p todo
  | .sweeping _ _ (.reowning p todo) => s.DeletedBut t p [] ∧ s.ReownedBut t p todo
  | _ => True

/-- No balance row of `p` is being inserted. -/
def NoInsert (s : State) (p : Uuid) : Prop :=
  ∀ c, s.balances.committed (p, c) = none → ∀ t b, s.balances.pending (p, c) ≠ some (t, some b)

/-- No movement of `p` is about to commit. -/
def NoMoves (s : State) (p : Uuid) : Prop := ∀ c t b, s.balances.pending (p, c) ≠ some (t, some b)

/-- Nothing of `p` is left. -/
structure Cleared (s : State) (p : Uuid) : Prop where
  balances : ∀ c, s.balances.committed (p, c) = none
  ledger : ∀ k row, s.ledger.committed k = some row → row.player ≠ p

/-- What holds in fenced runs. -/
structure Purging (s : State) : Prop where
  fresh : ∀ p, s.Erasing p → s.NoInsert p
  cleaned : ∀ t, s.Cleaned t (s.pc t)
  stamped : ∀ t p, s.Stamped t p → s.DeletedBut t p [] ∧ s.ReownedBut t p []
  swept : ∀ p, s.Swept p → s.Cleared p

section Erasing

variable {s : State} {t : Sess} {p : Uuid} {a : Act}

theorem erasing_of_stamped (h : s.Stamped t p) : s.Erasing p := by
  obtain ⟨_, hrow, hsw⟩ := h
  exact .inr (by simp [hrow, hsw])

theorem Sound.current_held (h : s.Sound) (hcur : (s.pc t).current = some p) :
    ∃ row, s.purged.pending p = some (t, some row) := by
  have hok := h.sess t
  cases hpc : s.pc t <;> rw [hpc] at hok hcur <;> first | cases hcur | skip
  exact SweepOk.claimed hok p (.inl hcur)

theorem Sound.erasing_of_current (h : s.Sound) (hcur : (s.pc t).current = some p) :
    s.Erasing p := by
  obtain ⟨_, hrow⟩ := h.current_held hcur
  exact .inr (by simp [hrow, hcur])

theorem erasing_cases (h : s.Erasing p) :
    s.Swept p ∨ ∃ t, s.Stamped t p ∨ (s.pc t).current = some p := by
  rcases h with hsw | hany
  · exact .inl hsw
  · obtain ⟨⟨t, _⟩, hp, hor⟩ := (any_eq_true _ _).1 hany
    refine .inr ⟨t, ?_⟩
    rw [Bool.or_eq_true, beq_iff_eq] at hor
    rcases hor with hsw | hcur
    · obtain ⟨row, rfl, hsw⟩ := (any_eq_true _ _).1 hsw
      exact .inl ⟨row, hp, hsw⟩
    · exact .inr hcur

theorem Sound.isSweep_of_stamped (h : s.Sound) (hst : s.Stamped t p) : (s.pc t).IsSweep := by
  obtain ⟨_, hrow, hsw⟩ := hst
  have hok := h.sess t
  cases hpc : s.pc t <;> rw [hpc] at hok
  case idle => exact absurd hrow (hok.purged p _)
  case opened => exact absurd hrow (hok.purged p _)
  case moving => exact absurd hrow (hok.1 p _)
  case closing => exact absurd hrow (hok.2 p _)
  case planting => exact absurd hrow (hok.1.purged p _)
  case planted =>
    obtain ⟨-, -, _, hrow', hun⟩ := hok.purged p _ hrow
    cases hrow'
    rw [hun] at hsw
    cases hsw
  all_goals trivial

/-- A sweep holds committed tombstones. -/
theorem Sound.tombstone_of_held
    {row : PurgedRow}
    (h : s.Sound)
    (hsweep : (s.pc t).IsSweep)
    (hp : s.purged.pending p = some (t, some row)) :
    s.purged.committed p ≠ none := by
  have hok := h.sess t
  cases hpc : s.pc t with
  | sweepOpen | sweeping | swept =>
    rw [hpc] at hok
    obtain ⟨_, _, hcom, -⟩ := SweepOk.purged hok p _ hp
    rw [hcom]
    exact some_ne_none _
  | _ =>
    rw [hpc] at hsweep
    exact hsweep.elim

/-- A movement that comes to its check while the rows of its player are being deleted is
refused.  What `Fenced` excludes has read the tombstone before it was planted. -/
theorem Sound.not_checked_of_erasing
    {j : Job}
    (h : s.Sound)
    (her : s.Erasing p) :
    ¬ s.enabled (.check t j p) := by
  rintro ⟨-, -, -, hnone⟩
  rcases erasing_cases her with hsw | ⟨u, hst | hcur⟩
  · rw [Swept, hnone] at hsw
    cases hsw
  · have hsweep := h.isSweep_of_stamped hst
    obtain ⟨_, hrow, -⟩ := hst
    exact h.tombstone_of_held hsweep hrow hnone
  · obtain ⟨_, hrow⟩ := h.current_held hcur
    have hsweep : (s.pc u).IsSweep := by
      cases hpc : s.pc u with
      | sweeping => trivial
      | _ =>
        rw [hpc] at hcur
        cases hcur
    exact h.tombstone_of_held hsweep hrow hnone

/-- Only the stamp of a sweep stamps. -/
theorem stamped_step (h : (s.effect a).Stamped t p) :
    s.Stamped t p ∨ ∃ due rest row, a = .stampSwept t due rest p row := by
  obtain ⟨row, hrow, hsw⟩ := h
  cases a with
  | plant u q handle =>
    replace hrow :
        (s.purged.write u q (some ⟨handle, false⟩)).pending p = some (t, some row) := hrow
    rw [pending_write] at hrow
    split at hrow
    · cases hrow
      cases hsw
    · exact .inl ⟨row, hrow, hsw⟩
  | sweepSelect u w =>
    replace hrow : (s.purged.lockAll u (s.dueBatch u w)).pending p = some (t, some row) := hrow
    rw [pending_lockAll] at hrow
    split at hrow
    · rename_i hmem
      obtain ⟨-, _, hview, hun⟩ := mem_dueBatch hmem
      rw [hview] at hrow
      cases hrow
      rw [hun] at hsw
      cases hsw
    · exact .inl ⟨row, hrow, hsw⟩
  | stampSwept u due rest q row' =>
    replace hrow : (s.purged.write u q (some { row' with swept := true })).pending p =
      some (t, some row) := hrow
    rw [pending_write] at hrow
    split at hrow
    · rename_i hpq
      subst hpq
      cases hrow
      exact .inr ⟨due, rest, row', rfl⟩
    · exact .inl ⟨row, hrow, hsw⟩
  | finish | fail | abort => exact .inl ⟨row, ((pending_rollback _ _ _ _ _).1 hrow).1, hsw⟩
  | commit | commitLost | commitPlant | commitSweep =>
    exact .inl ⟨row, ((pending_commit _ _ _ _ _).1 hrow).1, hsw⟩
  | _ => exact .inl ⟨row, hrow, hsw⟩

/-- A sweep takes up a player only at the start of a `DELETE`. -/
theorem current_step (en : s.enabled a) (h : ((s.effect a).pc t).current = some p) :
    (s.pc t).current = some p ∨ ∃ due rest, a = .deleteStart t due p rest := by
  by_cases ha : a.actor = some t
  · cases a with
    | addCurrency | refuse => cases ha
    | deleteStart _ due _ rest =>
      cases ha
      have h : (update s.pc t _ t).current = some p := h
      rw [update_self] at h
      cases h
      exact .inr ⟨due, rest, rfl⟩
    | deleteRow | reownRow =>
      cases ha
      have h : (update s.pc t _ t).current = some p := h
      rw [update_self] at h
      rw [en.1]
      exact .inl h
    | reownStart =>
      cases ha
      have h : (update s.pc t _ t).current = some p := h
      rw [update_self] at h
      rw [en]
      exact .inl h
    | _ =>
      cases ha
      simp [effect, goto, rollbackTx, commitTx, commitMovement, reply, Pc.current] at h
  · rw [pc_other ha] at h
    exact .inl h

/-- A player becomes swept only by the commit of a sweep that stamped it. -/
theorem Sound.swept_step (h : s.Sound) (en : s.enabled a) (hsw : (s.effect a).Swept p) :
    s.Swept p ∨ ∃ t, a = .commitSweep t ∧ s.Stamped t p := by
  have hquiet : (s.effect a).purged.committed p = s.purged.committed p → s.Swept p := by
    intro heq
    rwa [Swept, heq] at hsw
  cases a with
  | commit t j q id b | commitLost t j q id b =>
    have hok := h.sess t
    rw [show s.pc t = .moving j q (.emitted id b) from en] at hok
    exact .inl (hquiet (hok.1.committed_commit p))
  | commitPlant t =>
    have hok : s.PlantOk t := by
      have hok := h.sess t
      rwa [show s.pc t = .planted from en] at hok
    rcases s.purged.commit_cases t p with ⟨v, hv, hcom⟩ | ⟨-, heq⟩
    · obtain ⟨-, -, _, rfl, hun⟩ := hok.purged p v hv
      have hsw : ((s.purged.commit t).committed p).map PurgedRow.swept = some true := hsw
      rw [hcom, map_some, hun] at hsw
      cases hsw
    · exact .inl (hquiet heq)
  | commitSweep t =>
    have hok : s.SweepOk t .swept := by
      have hok := h.sess t
      rwa [show s.pc t = .swept from en] at hok
    rcases s.purged.commit_cases t p with ⟨v, hv, hcom⟩ | ⟨-, heq⟩
    · obtain ⟨-, row, -, -, rfl⟩ := hok.purged p v hv
      have hsw : ((s.purged.commit t).committed p).map PurgedRow.swept = some true := hsw
      rw [hcom, map_some, some.injEq] at hsw
      exact .inr ⟨t, rfl, row, hv, hsw⟩
    · exact .inl (hquiet heq)
  | _ => exact .inl (hquiet (by simp [effect, goto, rollbackTx, reply]))

/-- Erasure begins only at the start of a `DELETE`. -/
theorem Sound.erasing_step (h : s.Sound) (en : s.enabled a) (her : (s.effect a).Erasing p) :
    s.Erasing p ∨ ∃ t due rest, a = .deleteStart t due p rest := by
  rcases erasing_cases her with hsw | ⟨t, hst | hcur⟩
  · rcases h.swept_step en hsw with hsw | ⟨_, -, hst⟩
    · exact .inl (.inl hsw)
    · exact .inl (erasing_of_stamped hst)
  · rcases stamped_step hst with hst | ⟨_, _, _, rfl⟩
    · exact .inl (erasing_of_stamped hst)
    · refine .inl (h.erasing_of_current (t := t) ?_)
      rw [en.1]
      rfl
  · rcases current_step en hcur with hcur | ⟨due, rest, rfl⟩
    · exact .inl (h.erasing_of_current hcur)
    · exact .inr ⟨t, due, rest, rfl⟩

end Erasing

section Inserts

variable {s : State} {t : Sess} {p : Uuid} {a : Act}

/-- Where the pending amount of a balance row comes from. -/
theorem held_amount_step {k : Uuid × String} {u : Sess} {b : Int} (en : s.enabled a)
    (h : (s.effect a).balances.pending k = some (u, some b)) :
    s.balances.pending k = some (u, some b) ∨ (s.effect a).balances.committed k ≠ none ∨
      ∃ j q id, a = .insert u j q id ∧ k = j.pair q := by
  have hwrite : ∀ {v k' x b'}, s.balances.committed k' = some b' →
      (s.balances.write v k' x).pending k = some (u, some b) →
      s.balances.pending k = some (u, some b) ∨ (s.balances.write v k' x).committed k ≠ none := by
    intro _ _ _ b' hrow h
    rw [pending_write] at h
    split at h
    · rename_i hk
      rw [committed_write, hk, hrow]
      exact .inr (some_ne_none b')
    · exact .inl h
  cases a with
  | update => exact (hwrite en.2.2.1 h).imp_right .inl
  | merge => exact (hwrite en.2.2.2.1 h).imp_right .inl
  | insert v j q id =>
    replace h : (s.balances.write v (j.pair q) _).pending k = some (u, some b) := h
    rw [pending_write] at h
    split at h
    · rename_i hk
      cases h
      exact .inr (.inr ⟨j, q, id, rfl, hk⟩)
    · exact .inl h
  | deleteRow v _ _ _ _ k' =>
    replace h : (s.deleteBalance v k').pending k = some (u, some b) := h
    unfold deleteBalance at h
    split at h
    · exact .inl h
    · rw [pending_write] at h
      split at h
      · cases h
      · exact .inl h
  | finish | fail | abort => exact .inl ((pending_rollback _ _ _ _ _).1 h).1
  | commit | commitLost | commitPlant | commitSweep =>
    exact .inl ((pending_commit _ _ _ _ _).1 h).1
  | _ => exact .inl h

/-- Without a new insert, inserts of `p` stay absent. -/
theorem NoInsert.step (h : s.NoInsert p) (en : s.enabled a) (hno : ∀ u j id, a ≠ .insert u j p id) :
    (s.effect a).NoInsert p := by
  intro c hnone u b hp
  rcases held_amount_step en hp with hold | hsome | ⟨j, q, id, rfl, hk⟩
  · refine h c ?_ u b hold
    rw [← (balances_step en).committed_of_held hold hp, hnone]
  · exact hsome hnone
  · have hq : p = q := congrArg Prod.fst hk
    exact hno u j id (hq ▸ rfl)

/-- In a fenced run the rows of a player being erased are not inserted anew. -/
theorem Purging.fresh_step (h : s.Purging) (hsound : s.Sound) (hG : s.Fenced a) (en : s.enabled a)
    (her : (s.effect a).Erasing p) : (s.effect a).NoInsert p := by
  rcases hsound.erasing_step en her with hold | ⟨t, due, rest, rfl⟩
  · refine (h.fresh p hold).step en ?_
    rintro u j id rfl
    exact hG hold
  · intro c hnone u b hp
    have hp : s.balances.pending (p, c) = some (u, some b) := hp
    have hkey : (p, c) ∈ s.balances.keys := by
      by_contra hk
      simp [Table.pending, s.balances.support _ hk, Cell.empty] at hp
    have hfree := hG (p, c) hkey rfl hnone
    rw [hfree] at hp
    cases hp

/-- With the committed rows deleted and no insert on the way, nobody moves the
player's money. -/
theorem NoInsert.noMoves (h : s.NoInsert p) (hdel : s.DeletedBut t p []) : s.NoMoves p := by
  intro c u b hp
  by_cases hnone : s.balances.committed (p, c) = none
  · exact h c hnone u b hp
  · rcases hdel c hnone with hmem | hheld
    · cases hmem
    · rw [hheld] at hp
      cases hp

theorem NoInsert.noMoves_of_cleared (h : s.NoInsert p) (hcl : s.Cleared p) : s.NoMoves p :=
  fun c u b hp => h c (hcl.balances c) u b hp

/-- While no balance row of `p` is inserted, none appears. -/
theorem NoInsert.committed_step (h : s.NoInsert p) (hsound : s.Sound) (en : s.enabled a)
    {c : String} (hsome : (s.effect a).balances.committed (p, c) ≠ none) :
    s.balances.committed (p, c) ≠ none := by
  intro hnone
  rcases hsound.commit_cases en with ⟨u, _, _, _, _, b, -, hpc, hrec⟩ | hera
  · rw [hrec.balances] at hsome
    split at hsome
    · rename_i hk
      obtain ⟨-, -, -, hmoved, -⟩ := hsound.emitted hpc
      have hheld : s.balances.pending (p, c) = some (u, some b) := hk ▸ hmoved.row.held
      exact h c hnone u b hheld
    · exact hsome hnone
  · rcases hera.balances (p, c) with hsame | ⟨hnone', -⟩
    · exact hsome (hsame.trans hnone)
    · exact hsome hnone'

/-- While nobody moves the money of `p`, no ledger row of `p` appears. -/
theorem NoMoves.ledger_step (h : s.NoMoves p) (hsound : s.Sound) (en : s.enabled a)
    (hnil : p ≠ Uuid.nil) {k : String} {row : LedgerRow}
    (hrow : (s.effect a).ledger.committed k = some row) (hplayer : row.player = p) :
    s.ledger.committed k = some row := by
  rcases hsound.commit_cases en with ⟨u, j, _, _, _, b, -, hpc, hrec⟩ | hera
  · rw [hrec.ledger] at hrow
    split at hrow
    · cases hrow
      obtain ⟨-, -, -, hmoved, -⟩ := hsound.emitted hpc
      have hheld : s.balances.pending (p, j.call.currency) = some (u, some b) :=
        hplayer ▸ hmoved.row.held
      exact absurd hheld (h _ u b)
    · exact hrow
  · rcases hera.ledger k with hsame | ⟨_, -, hrow', -⟩
    · rw [← hsame, hrow]
    · rw [hrow'] at hrow
      cases hrow
      exact absurd hplayer.symm hnil

end Inserts

section Others

variable {s : State} {t : Sess} {p : Uuid} {a : Act}

theorem DeletedBut.frame {todo : List (Uuid × String)} (h : s.DeletedBut t p todo)
    (hfresh : s.NoInsert p) (hsound : s.Sound) (en : s.enabled a) (ha : a.actor ≠ some t) :
    (s.effect a).DeletedBut t p todo := by
  intro c hsome
  refine (h c (hfresh.committed_step hsound en hsome)).imp_right ?_
  exact fun hp => ((hsound.frame en ha).balances.pending_iff _ _).2 hp

theorem ReownedBut.frame {todo : List String} (h : s.ReownedBut t p todo) (hmoves : s.NoMoves p)
    (hsound : s.Sound) (en : s.enabled a) (hnil : p ≠ Uuid.nil) (ha : a.actor ≠ some t) :
    (s.effect a).ReownedBut t p todo := by
  intro k row hrow hplayer
  refine (h k row (hmoves.ledger_step hsound en hnil hrow hplayer) hplayer).imp_right ?_
  exact fun hp => ((hsound.frame en ha).ledger.pending_iff _ _).2 hp

/-- A sweep keeps its progress while others move. -/
theorem Purging.cleaned_other (h : s.Purging) (hsound : s.Sound) (en : s.enabled a)
    (ha : a.actor ≠ some t) : (s.effect a).Cleaned t ((s.effect a).pc t) := by
  rw [pc_other ha]
  have hcl := h.cleaned t
  cases hpc : s.pc t with
  | sweeping _ _ ph =>
    cases ph with
    | next => trivial
    | deleting p =>
      rw [hpc] at hcl
      have hcur : (s.pc t).current = some p := by rw [hpc]; rfl
      exact DeletedBut.frame hcl (h.fresh p (hsound.erasing_of_current hcur)) hsound en ha
    | reowning p =>
      rw [hpc] at hcl
      have hcur : (s.pc t).current = some p := by rw [hpc]; rfl
      have hfresh := h.fresh p (hsound.erasing_of_current hcur)
      obtain ⟨_, hrow⟩ := hsound.current_held hcur
      exact ⟨hcl.1.frame hfresh hsound en ha,
        hcl.2.frame (hfresh.noMoves hcl.1) hsound en (hsound.purged_ne_nil hrow) ha⟩
  | _ => trivial

theorem Purging.stamped_other (h : s.Purging) (hsound : s.Sound) (en : s.enabled a)
    (ha : a.actor ≠ some t) (hst : s.Stamped t p) :
    (s.effect a).DeletedBut t p [] ∧ (s.effect a).ReownedBut t p [] := by
  obtain ⟨hdel, hre⟩ := h.stamped t p hst
  have hfresh := h.fresh p (erasing_of_stamped hst)
  obtain ⟨_, hrow, -⟩ := hst
  exact ⟨hdel.frame hfresh hsound en ha,
    hre.frame (hfresh.noMoves hdel) hsound en (hsound.purged_ne_nil hrow) ha⟩

end Others

section Own

variable {s : State} {t : Sess} {p : Uuid} {a : Act}

/-- The `DELETE` of a sweep sees every row it has not deleted. -/
theorem SweepOk.deleteStart {pc : Pc} (h : s.SweepOk t pc) :
    s.DeletedBut t p (s.balancesOf t p) := by
  intro c hsome
  rcases s.balances.view_cases t (p, c) with ⟨v, hv, -⟩ | ⟨-, heq⟩
  · obtain ⟨rfl, -⟩ := h.balances _ v hv
    exact .inr hv
  · obtain ⟨b, hb⟩ := ne_none_iff_exists'.1 hsome
    exact .inl (mem_select.2 ⟨b, heq.trans hb, beq_self_eq_true p⟩)

/-- The `DELETE` of a sweep reaches the row `k`. -/
theorem DeletedBut.deleteRow
    {pc : Pc} {todo : List (Uuid × String)} {k : Uuid × String} {s' : State}
    (h : s.DeletedBut t p todo) (hsw : s.SweepOk t pc) (hb : s'.balances = s.deleteBalance t k) :
    s'.DeletedBut t p (todo.erase k) := by
  intro c hsome
  rw [hb, deleteBalance] at hsome ⊢
  by_cases hk : (p, c) = k
  · subst hk
    split at hsome
    · rename_i hview
      rw [if_pos hview]
      -- a row that exists and is not seen was deleted before
      rcases s.balances.view_cases t (p, c) with ⟨v, hv, -⟩ | ⟨-, heq⟩
      · obtain ⟨rfl, -⟩ := hsw.balances _ v hv
        exact .inr hv
      · exact absurd (heq.symm.trans hview) hsome
    · rename_i hview
      rw [if_neg hview]
      exact .inr (pending_write_self t _ none _)
  · have hold : s.balances.committed (p, c) ≠ none := by
      split at hsome
      · exact hsome
      · rwa [committed_write] at hsome
    rcases h c hold with hmem | hheld
    · exact .inl ((List.mem_erase_of_ne hk).2 hmem)
    · refine .inr ?_
      split
      · exact hheld
      · rw [pending_write_of_ne t none _ hk, hheld]

/-- The re-owning `UPDATE` of a sweep sees every row it has not re-owned. -/
theorem SweepOk.reownStart {pc : Pc} (h : s.SweepOk t pc) : s.ReownedBut t p (s.ledgerOf t p) := by
  intro k row hrow hplayer
  rcases s.ledger.view_cases t k with ⟨v, hv, -⟩ | ⟨-, heq⟩
  · obtain ⟨_, hrow', rfl, -⟩ := h.ledger k v hv
    rw [hrow, some.injEq] at hrow'
    exact .inr (hrow' ▸ hv)
  · exact .inl (mem_select.2 ⟨row, heq.trans hrow, by simp [hplayer]⟩)

/-- The re-owning `UPDATE` of a sweep, which works on the player `q`, reaches the
row `k`. -/
theorem ReownedBut.reownRow {pc : Pc} {todo : List String} {k : String} {q : Uuid} {s' : State}
    (h : s.ReownedBut t p todo) (hsw : s.SweepOk t pc) (hq : q ≠ Uuid.nil) (hk : k ∈ todo → q = p)
    (hl : s'.ledger = s.reownEntry t q k) : s'.ReownedBut t p (todo.erase k) := by
  have hcom : ∀ k', s'.ledger.committed k' = s.ledger.committed k' := by
    intro _
    rw [hl]
    unfold reownEntry
    repeat' split
    all_goals simp
  intro k' row hrow hplayer
  rw [hcom] at hrow
  rcases s.ledger.view_cases t k' with ⟨v, hv, heq⟩ | ⟨hnot, heq⟩
  · -- a row it holds is re-owned already and is seen under the nil uuid
    obtain ⟨_, hrow', rfl, -⟩ := hsw.ledger k' v hv
    rw [hrow, some.injEq] at hrow'
    subst hrow'
    refine .inr ?_
    rw [hl]
    unfold reownEntry
    split
    · exact hv
    · rename_i row'' hview
      split
      · rename_i hplayer'
        rw [pending_write_of_ne, hv]
        rintro rfl
        rw [heq, some.injEq] at hview
        rw [← hview] at hplayer'
        exact hq hplayer'.symm
      · exact hv
  · rcases h k' row hrow hplayer with hmem | hv
    · by_cases hkk : k' = k
      · subst hkk
        refine .inr ?_
        rw [hl, reownEntry, heq, hrow]
        simp only
        rw [if_pos (hplayer.trans (hk hmem).symm), pending_write_self]
      · exact .inl ((List.mem_erase_of_ne hkk).2 hmem)
    · exact absurd hv (hnot _)

/-- A step of a sweep keeps or makes progress with its current player. -/
theorem Purging.cleaned_own (h : s.Purging) (hsound : s.Sound) (en : s.enabled a)
    (ha : a.actor = some t) : (s.effect a).Cleaned t ((s.effect a).pc t) := by
  have hcl := h.cleaned t
  have hok := hsound.sess t
  cases a with
  | addCurrency | refuse => cases ha
  | deleteStart _ due q rest =>
    cases ha
    rw [show s.pc t = .sweeping due (q :: rest) .next from en] at hok
    have hdel : s.DeletedBut t q (s.balancesOf t q) := SweepOk.deleteStart hok
    show Cleaned _ t (update s.pc t _ t)
    rw [update_self]
    exact hdel
  | deleteRow =>
    cases ha
    rw [en.1] at hok hcl
    show Cleaned _ t (update s.pc t _ t)
    rw [update_self]
    exact DeletedBut.deleteRow hcl hok rfl
  | reownStart _ due rest q =>
    cases ha
    rw [show s.pc t = .sweeping due rest (.deleting q []) from en] at hok hcl
    have hre : s.ReownedBut t q (s.ledgerOf t q) := SweepOk.reownStart hok
    show Cleaned _ t (update s.pc t _ t)
    rw [update_self]
    exact ⟨hcl, hre⟩
  | reownRow _ _ _ q =>
    cases ha
    obtain ⟨_, hrow⟩ := hsound.current_held (t := t) (p := q) (by rw [en.1]; rfl)
    rw [en.1] at hok hcl
    show Cleaned _ t (update s.pc t _ t)
    rw [update_self]
    exact ⟨hcl.1, hcl.2.reownRow hok (hsound.purged_ne_nil hrow) (fun _ => rfl) rfl⟩
  | _ =>
    cases ha
    simp [effect, goto, rollbackTx, commitTx, commitMovement, reply, Cleaned]

/-- A stamped player stays erased while its sweep goes on. -/
theorem Purging.stamped_own (h : s.Purging) (hsound : s.Sound) (en : s.enabled a)
    (ha : a.actor = some t) (hst : (s.effect a).Stamped t p) :
    (s.effect a).DeletedBut t p [] ∧ (s.effect a).ReownedBut t p [] := by
  have hsweep := (hsound.step en).isSweep_of_stamped hst
  have hold := stamped_step hst
  cases a with
  | addCurrency | refuse => cases ha
  | sweepOpen | sweepSelect | deleteStart | reownStart | sweepMore | sweepEnd | sweepBudget =>
    exact h.stamped t p (hold.resolve_right (by simp))
  | deleteRow =>
    cases ha
    obtain ⟨hdel, hre⟩ := h.stamped t p (hold.resolve_right (by simp))
    have hok := hsound.sess t
    rw [en.1] at hok
    exact ⟨DeletedBut.deleteRow hdel hok rfl, hre⟩
  | reownRow _ _ _ q =>
    cases ha
    obtain ⟨hdel, hre⟩ := h.stamped t p (hold.resolve_right (by simp))
    obtain ⟨_, hrow⟩ := hsound.current_held (t := t) (p := q) (by rw [en.1]; rfl)
    have hok := hsound.sess t
    rw [en.1] at hok
    exact ⟨hdel, hre.reownRow hok (hsound.purged_ne_nil hrow) (fun hk => by cases hk) rfl⟩
  | stampSwept =>
    cases ha
    rcases hold with hst | ⟨_, _, _, heq⟩
    · exact h.stamped t p hst
    · cases heq
      have hcl := h.cleaned t
      rw [en.1] at hcl
      exact hcl
  | _ =>
    cases ha
    simp [effect, goto, rollbackTx, commitTx, commitMovement, reply, Pc.IsSweep] at hsweep

end Own

section Run

variable {s : State} {p : Uuid} {a : Act}

/-- The commit of a sweep clears the players it stamped. -/
theorem Purging.cleared_commit {t : Sess} (h : s.Purging) (hsound : s.Sound) (hpc : s.pc t = .swept)
    (hst : s.Stamped t p) : (s.commitTx t).Cleared p := by
  have hok : s.SweepOk t .swept := by
    have hok := hsound.sess t
    rwa [hpc] at hok
  obtain ⟨hdel, hre⟩ := h.stamped t p hst
  have hnil : p ≠ Uuid.nil := by
    obtain ⟨_, hrow, -⟩ := hst
    exact hsound.purged_ne_nil hrow
  constructor
  · intro c
    show (s.balances.commit t).committed (p, c) = none
    rcases s.balances.commit_cases t (p, c) with ⟨v, hv, heq⟩ | ⟨hnot, heq⟩ <;> rw [heq]
    · exact (hok.balances _ v hv).1
    · by_contra hsome
      rcases hdel c hsome with hmem | hv
      · cases hmem
      · exact hnot _ hv
  · intro k row hrow hplayer
    replace hrow : (s.ledger.commit t).committed k = some row := hrow
    rcases s.ledger.commit_cases t k with ⟨v, hv, heq⟩ | ⟨hnot, heq⟩ <;> rw [heq] at hrow
    · obtain ⟨_, -, rfl, -⟩ := hok.ledger k v hv
      cases hrow
      exact hnil hplayer.symm
    · rcases hre k row hrow hplayer with hmem | hv
      · cases hmem
      · exact hnot _ hv

/-- A cleared player stays cleared. -/
theorem Cleared.step (h : s.Cleared p) (hfresh : s.NoInsert p) (hsound : s.Sound)
    (hnil : p ≠ Uuid.nil) (en : s.enabled a) : (s.effect a).Cleared p := by
  constructor
  · intro c
    by_contra hsome
    exact hfresh.committed_step hsound en hsome (h.balances c)
  · intro k row hrow hplayer
    exact h.ledger k row
      ((hfresh.noMoves_of_cleared h).ledger_step hsound en hnil hrow hplayer) hplayer

theorem Purging.step (h : s.Purging) (hsound : s.Sound) (hG : s.Fenced a) (en : s.enabled a) :
    (s.effect a).Purging where
  fresh := fun p her => h.fresh_step hsound hG en her
  cleaned := by
    intro t
    by_cases ha : a.actor = some t
    · exact h.cleaned_own hsound en ha
    · exact h.cleaned_other hsound en ha
  stamped := by
    intro t _ hst
    by_cases ha : a.actor = some t
    · exact h.stamped_own hsound en ha hst
    · rcases stamped_step hst with hst | ⟨_, _, _, rfl⟩
      · exact h.stamped_other hsound en ha hst
      · exact absurd rfl ha
  swept := by
    intro p hsw
    rcases hsound.swept_step en hsw with hold | ⟨_, rfl, hst⟩
    · have hnil : p ≠ Uuid.nil := by
        rintro rfl
        simp [Swept, hsound.nil] at hold
      exact (h.swept p hold).step (h.fresh p (.inl hold)) hsound hnil en
    · exact h.cleared_commit hsound en hst

theorem purging_reachable (h : system.Reachable Fenced s) : s.Purging := by
  refine h.invariant ?_ ?_
  · constructor
    · intro _ _ _ _ _ _ hp
      cases hp
    · intro _
      trivial
    · rintro _ _ ⟨_, hrow, -⟩
      cases hrow
    · intro _ hsw
      cases hsw
  · intro _ _ hr hpur hG en
    exact hpur.step (sound_reachable hr) hG en

/-- In every fenced run, a player whose tombstone carries `swept_at` has no
balance row, and no ledger row carries the player's id. -/
theorem swept_player_has_nothing (h : system.Reachable Fenced s) (hsw : s.Swept p) :
    (∀ c, s.balances.committed (p, c) = none) ∧
      ∀ k row, s.ledger.committed k = some row → row.player ≠ p :=
  ⟨((purging_reachable h).swept p hsw).balances, ((purging_reachable h).swept p hsw).ledger⟩

/-- A second credit holds the balance row when the sweep starts; the sweep waits
for it and erases what it left. -/
def waitRun : List Act :=
  let j₁ : Job := ⟨0, 0, creditOf "a" 100⟩
  let j₂ : Job := ⟨1, 1, creditOf "b" 50⟩
  [.addCurrency "gold", .open 1 j₁.call, .check 1 j₁ player, .claim 1 j₁ player,
   .updateMiss 1 j₁ player 1, .insert 1 j₁ player 1,
   .stamp 1 j₁ player 1 100 (j₁.row player 1 1 0), .emit 1 j₁ player 1 100,
   .commit 1 j₁ player 1 100, .open 1 j₂.call, .check 1 j₂ player, .claim 1 j₂ player,
   .plantOpen 2 player "handle", .plant 2 player "handle", .commitPlant 2,
   .update 1 j₂ player 2 100, .sweepOpen 3, .sweepSelect 3 Uuid.nil,
   .deleteStart 3 [player] player [], .stamp 1 j₂ player 2 150 (j₂.row player 2 3 0),
   .emit 1 j₂ player 2 150, .commit 1 j₂ player 2 150,
   .deleteRow 3 [player] [] player [(player, "gold")] (player, "gold"),
   .reownStart 3 [player] [] player, .reownRow 3 [player] [] player ["b", "a"] "a",
   .reownRow 3 [player] [] player ["b"] "b",
   .stampSwept 3 [player] [] player ⟨"handle", false⟩, .sweepEnd 3 [player], .commitSweep 3]

theorem waitRun_runs : (system.exec Fenced system.start waitRun).isSome := by decide +kernel

/-- The state after `waitRun`. -/
def waitState : State := TransitionSystem.final Fenced waitRun waitRun_runs

theorem swept_player_has_nothing_wait :
    waitState.Swept player ∧ waitState.applied.length = 2 ∧
    waitState.balances.committed (player, "gold") = none := by
  have hsw : waitState.Swept player ∧ waitState.applied.length = 2 := by decide +kernel
  exact ⟨hsw.1, hsw.2, (swept_player_has_nothing
    (reachable_final _ _ waitRun_runs) hsw.1).1 "gold"⟩

/-- A credit that passed the tombstone check runs on after the player was deleted
and swept. -/
def lateRun : List Act :=
  let j : Job := ⟨0, 0, creditOf "a" 100⟩
  [.addCurrency "gold", .open 1 j.call, .check 1 j player, .plantOpen 2 player "handle",
   .plant 2 player "handle", .commitPlant 2, .sweepOpen 3, .sweepSelect 3 Uuid.nil,
   .deleteStart 3 [player] player [], .reownStart 3 [player] [] player,
   .stampSwept 3 [player] [] player ⟨"handle", false⟩, .sweepEnd 3 [player], .commitSweep 3,
   .claim 1 j player, .updateMiss 1 j player 1, .insert 1 j player 1,
   .stamp 1 j player 1 100 (j.row player 1 1 0), .emit 1 j player 1 100,
   .commit 1 j player 1 100]

theorem lateRun_runs : (system.exec anyStep system.start lateRun).isSome := by decide +kernel

/-- The state after `lateRun`. -/
def lateState : State := TransitionSystem.final TransitionSystem.anyStep lateRun lateRun_runs

/-- Money and a ledger row of a swept player. -/
theorem swept_player_gets_money :
    system.Reachable TransitionSystem.anyStep lateState ∧
    lateState.Swept player ∧
    lateState.balances.committed (player, "gold") = some 100 ∧
    (lateState.ledger.committed "a").map LedgerRow.player = some player :=
  ⟨reachable_final _ _ lateRun_runs, by decide +kernel⟩

end Run

end State
end Swarog.Wallet
