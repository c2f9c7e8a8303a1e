import Swarog.Wallet.Sessions

/-!
# What a step commits

Every step of the wallet falls under one of two cases (`Sound.commit_cases`).
It `Records` one movement: a ledger row appears under an unused key, one balance
row moves to the amount the row records, one event is appended.  Or it `Erases`:
nothing that is committed changes, except for rows of players that the step
sweeps.  All properties of the committed tables are read off these two cases.
-/

namespace Swarog.Wallet

open Pg Table Option

namespace State

section Commit

variable {s : State} {t : Sess} {a : Act}

/-- Only plantings and sweeps hold tombstones, and never the one of the nil
uuid. -/
theorem Sound.purged_ne_nil (h : s.Sound) {p : Uuid} {v : Option PurgedRow}
    (hp : s.purged.pending p = some (t, v)) : p ≠ Uuid.nil := by
  have hok := h.sess t
  cases hpc : s.pc t <;> rw [hpc] at hok
  case idle => exact absurd hp (hok.purged p v)
  case opened => exact absurd hp (hok.purged p v)
  case moving => exact absurd hp (hok.1 p v)
  case closing => exact absurd hp (hok.2 p v)
  case planting => exact absurd hp (hok.1.purged p v)
  case planted => exact (hok.purged p v hp).1
  case sweepOpen => exact SweepOk.ne_nil hok h.nil ⟨v, hp⟩
  case sweeping => exact SweepOk.ne_nil hok h.nil ⟨v, hp⟩
  case swept => exact SweepOk.ne_nil hok h.nil ⟨v, hp⟩

/-- A step records the movement `e`. -/
structure Records (s s' : State) (e : Applied) : Prop where
  unused : s.ledger.committed e.key = none
  ledger : ∀ k, s'.ledger.committed k =
    if k = e.key then some e.row else s.ledger.committed k
  balances : ∀ k, s'.balances.committed k =
    if k = e.pair then some e.row.balanceAfter else s.balances.committed k
  purged : ∀ p, s'.purged.committed p = s.purged.committed p
  running : e.row.balanceAfter = (s.balances.committed e.pair).getD 0 + e.row.delta
  range : InRange e.row.balanceAfter
  latest : s.Latest e.pair e.row.seq
  applied : s'.applied = s.applied ++ [e]
  changed : s'.changed = s.changed ++ [e.changed]

/-- A step records no movement: it changes nothing that is committed, except
that the rows of players it thereby sweeps disappear or are re-owned. -/
structure Erases (s s' : State) : Prop where
  balances : ∀ k, s'.balances.committed k = s.balances.committed k ∨
    (s'.balances.committed k = none ∧ s'.Swept k.1)
  ledger : ∀ k, s'.ledger.committed k = s.ledger.committed k ∨
    ∃ row, s.ledger.committed k = some row ∧
      s'.ledger.committed k = some { row with player := Uuid.nil } ∧
      s'.Swept row.player ∧ row.player ≠ Uuid.nil
  planted : ∀ p, s.purged.committed p ≠ none → s'.purged.committed p ≠ none
  swept : ∀ p, s.Swept p → s'.Swept p
  nil : s.purged.committed Uuid.nil = none → s'.purged.committed Uuid.nil = none
  applied : s'.applied = s.applied
  changed : s'.changed = s.changed

theorem erases_of_quiet {s' : State} (hb : ∀ k, s'.balances.committed k = s.balances.committed k)
    (hl : ∀ k, s'.ledger.committed k = s.ledger.committed k)
    (hp : ∀ p, s'.purged.committed p = s.purged.committed p) (ha : s'.applied = s.applied)
    (hc : s'.changed = s.changed) : Erases s s' where
  balances := fun k => .inl (hb k)
  ledger := fun k => .inl (hl k)
  planted := fun p hpl => by rwa [hp p]
  swept := fun p hsw => by rwa [Swept, hp p]
  nil := fun hnil => by rwa [hp]
  applied := ha
  changed := hc

/-- The commit of a movement records it. -/
theorem Sound.records {s' : State} {j : Job} {p : Uuid} {id : Nat} {b : Int} (h : s.Sound)
    (hpc : s.pc t = .moving j p (.emitted id b)) (hb : s'.balances = s.balances.commit t)
    (hl : s'.ledger = s.ledger.commit t) (hp : s'.purged = s.purged.commit t)
    (ha : s'.applied = s.applied ++ (s.entryOf t j).toList)
    (hc : s'.changed = s.changed ++ [j.changed p id b]) :
    ∃ seq, Records s s' ⟨j.attempt, j.call.key, j.row p id seq b⟩ := by
  obtain ⟨seq, hclaim, hlast, hmoved, hentry⟩ := h.emitted hpc
  have hok := h.sess t
  rw [hpc] at hok
  refine ⟨seq, ?_⟩
  constructor
  · exact hclaim.unused
  · intro _
    rw [hl, hclaim.row.committed_commit]
  · intro _
    rw [hb, hmoved.row.committed_commit]
    rfl
  · intro _
    rw [hp, hok.1.committed_commit]
  · exact hmoved.balance
  · exact hmoved.range
  · exact hlast
  · rw [ha, hentry, toList_some]
  · exact hc

/-- The commit of a planting adds at most a tombstone that is not swept. -/
theorem Sound.commitPlant (h : s.Sound) (hpc : s.pc t = .planted) : Erases s (s.commitTx t) := by
  have hok : s.PlantOk t := by
    have hok := h.sess t
    rwa [hpc] at hok
  have hpurged : ∀ q, s.purged.committed q ≠ none →
      (s.commitTx t).purged.committed q = s.purged.committed q := by
    intro q hq
    show (s.purged.commit t).committed q = _
    rw [committed_commit]
    exact view_of_not_holder (fun v hv => hq (hok.purged q v hv).2.1)
  constructor
  · exact fun k => .inl (hok.balances.committed_commit k)
  · exact fun k => .inl (hok.ledger.committed_commit k)
  · intro q hq
    rwa [hpurged q hq]
  · intro q hq
    rw [Swept, hpurged q]
    · exact hq
    · intro hnone
      simp [Swept, hnone] at hq
  · intro hnil
    show (s.purged.commit t).committed _ = _
    rw [committed_commit, view_of_not_holder, hnil]
    exact fun v hv => (hok.purged _ v hv).1 rfl
  · rfl
  · rfl

/-- The commit of a sweep erases only players it stamped. -/
theorem Sound.commitSweep (h : s.Sound) (hpc : s.pc t = .swept) : Erases s (s.commitTx t) := by
  have hok : s.SweepOk t .swept := by
    have hok := h.sess t
    rwa [hpc] at hok
  have hstamped : ∀ q, s.Stamped t q ∨ Pc.swept.current = some q → (s.commitTx t).Swept q := by
    rintro q (⟨_, hrow, hsw⟩ | hcur)
    · show ((s.purged.commit t).committed q).map PurgedRow.swept = some true
      rw [committed_commit, view_of_pending_self hrow, map_some, hsw]
    · cases hcur
  constructor
  · intro k
    rcases s.balances.commit_cases t k with ⟨v, hv, heq⟩ | ⟨-, heq⟩
    · obtain ⟨rfl, hor⟩ := hok.balances k v hv
      exact .inr ⟨heq, hstamped _ hor⟩
    · exact .inl heq
  · intro k
    rcases s.ledger.commit_cases t k with ⟨v, hv, heq⟩ | ⟨-, heq⟩
    · obtain ⟨row, hrow, rfl, hor⟩ := hok.ledger k v hv
      refine .inr ⟨row, hrow, heq, hstamped _ hor, ?_⟩
      rcases hor with ⟨_, hprow, -⟩ | hcur
      · exact h.purged_ne_nil hprow
      · cases hcur
    · exact .inl heq
  · intro q hq
    show (s.purged.commit t).committed q ≠ none
    rcases s.purged.commit_cases t q with ⟨v, hv, heq⟩ | ⟨-, heq⟩ <;> rw [heq]
    · obtain ⟨-, row, -, -, rfl⟩ := hok.purged q v hv
      exact some_ne_none row
    · exact hq
  · intro q hq
    show ((s.purged.commit t).committed q).map PurgedRow.swept = some true
    rw [committed_commit, view_of_not_holder]
    · exact hq
    · intro v hv
      obtain ⟨_, -, hrow₀, hun, -⟩ := hok.purged q v hv
      simp [Swept, hrow₀, hun] at hq
  · intro hnil
    show (s.purged.commit t).committed _ = _
    rw [committed_commit, view_of_not_holder, hnil]
    exact fun v hv => h.purged_ne_nil hv rfl
  · rfl
  · rfl

/-- What a step does to the committed rows: it records one movement, that of
the acting session, or it records none. -/
theorem Sound.commit_cases (h : s.Sound) (en : s.enabled a) :
    (∃ t j p id seq b, a.actor = some t ∧ s.pc t = .moving j p (.emitted id b) ∧
      Records s (s.effect a) ⟨j.attempt, j.call.key, j.row p id seq b⟩) ∨
    Erases s (s.effect a) := by
  cases a with
  | commit t j p id b =>
    obtain ⟨seq, hrec⟩ : ∃ seq, Records s (s.effect (.commit t j p id b)) _ :=
      h.records en rfl rfl rfl rfl rfl
    exact .inl ⟨t, j, p, id, seq, b, rfl, en, hrec⟩
  | commitLost t j p id b m =>
    obtain ⟨seq, hrec⟩ : ∃ seq, Records s (s.effect (.commitLost t j p id b m)) _ :=
      h.records en rfl rfl rfl rfl rfl
    exact .inl ⟨t, j, p, id, seq, b, rfl, en, hrec⟩
  | commitPlant => exact .inr (h.commitPlant en)
  | commitSweep => exact .inr (h.commitSweep en)
  | deleteRow t _ _ _ _ k =>
    refine .inr (erases_of_quiet ?_ (fun _ => rfl) (fun _ => rfl) rfl rfl)
    intro k'
    show (s.deleteBalance t k).committed k' = _
    unfold deleteBalance
    split <;> simp
  | reownRow t _ _ p _ k =>
    refine .inr (erases_of_quiet (fun _ => rfl) ?_ (fun _ => rfl) rfl rfl)
    intro k'
    show (s.reownEntry t p k).committed k' = _
    unfold reownEntry
    repeat' split
    all_goals simp
  | _ =>
    refine .inr (erases_of_quiet ?_ ?_ ?_ rfl rfl) <;> intro k <;>
      simp [effect, goto, rollbackTx, reply]

/-- The session invariant is kept by every step. -/
theorem Sound.step (h : s.Sound) (en : s.enabled a) : (s.effect a).Sound where
  sess := by
    intro t
    by_cases ha : a.actor = some t
    · exact h.own en ha
    · rw [pc_other ha]
      exact (h.sess t).frame (h.frame en ha)
  drawn := by
    intro e he
    refine Nat.lt_of_lt_of_le ?_ (nextSeq_le s a)
    rcases h.commit_cases en with ⟨_, _, _, _, _, _, -, -, hrec⟩ | hera
    · rw [hrec.applied, List.mem_append, List.mem_singleton] at he
      rcases he with he | rfl
      · exact h.drawn e he
      · exact hrec.latest.drawn
    · rw [hera.applied] at he
      exact h.drawn e he
  nil := by
    rcases h.commit_cases en with ⟨_, _, _, _, _, _, -, -, hrec⟩ | hera
    · rw [hrec.purged]
      exact h.nil
    · exact hera.nil h.nil

theorem sound_start : State.start.Sound where
  sess := fun _ => ⟨fun _ _ h => (by cases h), fun _ _ h => (by cases h), fun _ _ h => (by cases h)⟩
  drawn := fun _ h => by cases h
  nil := rfl

/-- In every reachable state the sessions know what they should. -/
theorem sound_reachable {G : State → Act → Prop} (h : system.Reachable G s) : s.Sound :=
  h.invariant sound_start (fun _ _ _ hs _ en => hs.step en)

end Commit
end State
end Swarog.Wallet
