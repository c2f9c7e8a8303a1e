import Swarog.Wallet.Ledger

/-!
# What the sessions of the wallet hold

A movement that has claimed its key holds exactly one ledger slot; once the
balance has moved it also holds exactly one balance slot, whose pending amount
is the committed one plus its delta.  A sweep holds tombstones, deletes balance
rows and re-owns ledger rows, all of them of players whose tombstone it holds.

`PcOk` is what a session at a program point knows.  It survives the steps of
other sessions (`PcOk.frame`), because they cannot touch the slots it holds.
-/

namespace Swarog.Wallet

open Pg Table Function Option

/-- The balance row a recorded movement belongs to. -/
def Applied.pair (a : Applied) : Uuid × String := (a.row.player, a.row.currency)

/-- The player whose rows the session is erasing. -/
def Pc.current : Pc → Option Uuid
  | .sweeping _ _ (.deleting p _) | .sweeping _ _ (.reowning p _) => some p
  | _ => none

/-- The players of the batch the session has not come to. -/
def Pc.rest : Pc → List Uuid
  | .sweeping _ rest _ => rest
  | _ => []

/-- The balance rows a `DELETE` has still to reach belong to its player. -/
def Pc.TodoOk : Pc → Prop
  | .sweeping _ _ (.deleting p todo) => ∀ k ∈ todo, k.1 = p
  | _ => True

namespace State

/-- `t` has no uncommitted writes. -/
structure Clean (s : State) (t : Sess) : Prop where
  balances : s.balances.HoldsNone t
  ledger : s.ledger.HoldsNone t
  purged : s.purged.HoldsNone t

/-- `t` holds the ledger row it inserted under an unused key. -/
structure Claimed (s : State) (t : Sess) (j : Job) (p : Uuid) (id seq : Nat) (b : Int) :
    Prop where
  row : s.ledger.HoldsOnly t j.call.key (some (j.row p id seq b))
  unused : s.ledger.committed j.call.key = none

/-- `t` holds the balance row it moved. -/
structure Moved (s : State) (t : Sess) (j : Job) (p : Uuid) (b : Int) : Prop where
  row : s.balances.HoldsOnly t (j.pair p) (some b)
  balance : b = (s.balances.committed (j.pair p)).getD 0 + j.call.delta
  range : InRange b

/-- `seq` was drawn after every recorded movement of the balance row `k`. -/
structure Latest (s : State) (k : Uuid × String) (seq : Nat) : Prop where
  drawn : seq < s.nextSeq
  last : ∀ a ∈ s.applied, a.pair = k → a.row.seq < seq

/-- `t` is about to commit the tombstone of `p` with `swept_at` set. -/
def Stamped (s : State) (t : Sess) (p : Uuid) : Prop :=
  ∃ row, s.purged.pending p = some (t, some row) ∧ row.swept = true

/-- What a movement knows at each stage. -/
def StageOk (s : State) (t : Sess) (j : Job) (p : Uuid) : Stage → Prop
  | .checked | .lost => s.ledger.HoldsNone t ∧ s.balances.HoldsNone t
  | .claimed id | .missed id => (∃ seq, s.Claimed t j p id seq 0) ∧ s.balances.HoldsNone t
  | .moved id b => (∃ seq, s.Claimed t j p id seq 0) ∧ s.Moved t j p b
  | .stamped id b | .emitted id b =>
    (∃ seq, s.Claimed t j p id seq b ∧ s.Latest (j.pair p) seq) ∧ s.Moved t j p b

/-- What a planting knows after its insert. -/
structure PlantOk (s : State) (t : Sess) : Prop where
  balances : s.balances.HoldsNone t
  ledger : s.ledger.HoldsNone t
  purged : ∀ p v, s.purged.pending p = some (t, v) →
    p ≠ Uuid.nil ∧ s.purged.committed p = none ∧ ∃ row, v = some row ∧ row.swept = false

/-- What a sweep knows. -/
structure SweepOk (s : State) (t : Sess) (pc : Pc) : Prop where
  balances : ∀ k v, s.balances.pending k = some (t, v) →
    v = none ∧ (s.Stamped t k.1 ∨ pc.current = some k.1)
  ledger : ∀ k v, s.ledger.pending k = some (t, v) →
    ∃ row, s.ledger.committed k = some row ∧ v = some { row with player := Uuid.nil } ∧
      (s.Stamped t row.player ∨ pc.current = some row.player)
  purged : ∀ p v, s.purged.pending p = some (t, v) →
    ∃ row₀ row, s.purged.committed p = some row₀ ∧ row₀.swept = false ∧ v = some row
  claimed : ∀ p, pc.current = some p ∨ p ∈ pc.rest → ∃ row, s.purged.pending p = some (t, some row)
  todo : pc.TodoOk

/-- What a session knows at a program point. -/
def PcOk (s : State) (t : Sess) : Pc → Prop
  | .idle | .opened _ => s.Clean t
  | .moving j p st =>
    s.purged.HoldsNone t ∧ validateMovement j.call.movement = .ok () ∧
      j.call.player = some p ∧ s.StageOk t j p st
  | .closing _ _ => s.balances.HoldsNone t ∧ s.purged.HoldsNone t
  | .planting p _ => s.Clean t ∧ p ≠ Uuid.nil
  | .planted => s.PlantOk t
  | .sweepOpen w => s.SweepOk t (.sweepOpen w)
  | .sweeping due rest ph => s.SweepOk t (.sweeping due rest ph)
  | .swept => s.SweepOk t .swept

section Frame

/-- From `s` to `s'` nothing happened that concerns what `t` holds. -/
structure Frame (s s' : State) (t : Sess) : Prop where
  balances : Table.Undisturbed t s.balances s'.balances
  ledger : Table.Undisturbed t s.ledger s'.ledger
  purged : Table.Undisturbed t s.purged s'.purged
  latest : ∀ k v seq, s.balances.pending k = some (t, v) → s.Latest k seq → s'.Latest k seq

variable {s s' : State} {t : Sess} {p : Uuid}

/-- Steps that touch neither table nor history. -/
theorem frame_of_eq (hb : s'.balances = s.balances) (hl : s'.ledger = s.ledger)
    (hp : s'.purged = s.purged) (ha : s'.applied = s.applied) (hseq : s.nextSeq ≤ s'.nextSeq) :
    Frame s s' t where
  balances := hb ▸ Undisturbed.refl t s.balances
  ledger := hl ▸ Undisturbed.refl t s.ledger
  purged := hp ▸ Undisturbed.refl t s.purged
  latest := fun _ _ _ _ h => ⟨Nat.lt_of_lt_of_le h.drawn hseq, by rw [ha]; exact h.last⟩

theorem Clean.frame (h : s.Clean t) (hf : Frame s s' t) : s'.Clean t :=
  ⟨h.balances.of_undisturbed hf.balances, h.ledger.of_undisturbed hf.ledger,
    h.purged.of_undisturbed hf.purged⟩

theorem Claimed.frame {j : Job} {id seq : Nat} {b : Int} (h : s.Claimed t j p id seq b)
    (hf : Frame s s' t) : s'.Claimed t j p id seq b :=
  ⟨h.row.of_undisturbed hf.ledger, by
    rw [hf.ledger.committed_eq _ _ h.row.held]
    exact h.unused⟩

theorem Moved.frame {j : Job} {b : Int} (h : s.Moved t j p b) (hf : Frame s s' t) :
    s'.Moved t j p b :=
  ⟨h.row.of_undisturbed hf.balances, by
    rw [hf.balances.committed_eq _ _ h.row.held]
    exact h.balance, h.range⟩

theorem StageOk.frame {j : Job} {st : Stage} (h : s.StageOk t j p st)
    (hf : Frame s s' t) : s'.StageOk t j p st := by
  cases st with
  | checked | lost => exact ⟨h.1.of_undisturbed hf.ledger, h.2.of_undisturbed hf.balances⟩
  | claimed | missed =>
    obtain ⟨⟨seq, hc⟩, hb⟩ := h
    exact ⟨⟨seq, hc.frame hf⟩, hb.of_undisturbed hf.balances⟩
  | moved =>
    obtain ⟨⟨seq, hc⟩, hm⟩ := h
    exact ⟨⟨seq, hc.frame hf⟩, hm.frame hf⟩
  | stamped | emitted =>
    obtain ⟨⟨seq, hc, hlast⟩, hm⟩ := h
    exact ⟨⟨seq, hc.frame hf, hf.latest _ _ _ hm.row.held hlast⟩, hm.frame hf⟩

theorem PlantOk.frame (h : s.PlantOk t) (hf : Frame s s' t) : s'.PlantOk t := by
  refine ⟨h.balances.of_undisturbed hf.balances, h.ledger.of_undisturbed hf.ledger, ?_⟩
  intro p v hp
  have hp' := (hf.purged.pending_iff p v).1 hp
  rw [hf.purged.committed_eq p v hp']
  exact h.purged p v hp'

theorem Stamped.frame (h : s.Stamped t p) (hf : Frame s s' t) : s'.Stamped t p := by
  obtain ⟨row, hp, hsw⟩ := h
  exact ⟨row, (hf.purged.pending_iff _ _).2 hp, hsw⟩

theorem SweepOk.frame {pc : Pc} (h : s.SweepOk t pc) (hf : Frame s s' t) : s'.SweepOk t pc where
  balances := by
    intro k v hp
    obtain ⟨hv, hor⟩ := h.balances k v ((hf.balances.pending_iff k v).1 hp)
    exact ⟨hv, hor.imp_left (fun hs => hs.frame hf)⟩
  ledger := by
    intro k v hp
    have hp' := (hf.ledger.pending_iff k v).1 hp
    obtain ⟨row, hrow, hv, hor⟩ := h.ledger k v hp'
    refine ⟨row, ?_, hv, hor.imp_left (fun hs => hs.frame hf)⟩
    rw [hf.ledger.committed_eq k v hp', hrow]
  purged := by
    intro p v hp
    have hp' := (hf.purged.pending_iff p v).1 hp
    rw [hf.purged.committed_eq p v hp']
    exact h.purged p v hp'
  claimed := by
    intro p hp
    obtain ⟨row, hrow⟩ := h.claimed p hp
    exact ⟨row, (hf.purged.pending_iff _ _).2 hrow⟩
  todo := h.todo

/-- What a session knows survives steps that leave what it holds alone. -/
theorem PcOk.frame {pc : Pc} (h : s.PcOk t pc) (hf : Frame s s' t) : s'.PcOk t pc := by
  cases pc with
  | idle | opened => exact Clean.frame h hf
  | moving =>
    obtain ⟨hp, hval, hpl, hst⟩ := h
    exact ⟨hp.of_undisturbed hf.purged, hval, hpl, hst.frame hf⟩
  | closing => exact ⟨h.1.of_undisturbed hf.balances, h.2.of_undisturbed hf.purged⟩
  | planting => exact ⟨h.1.frame hf, h.2⟩
  | planted => exact PlantOk.frame h hf
  | sweepOpen | sweeping | swept => exact SweepOk.frame h hf

end Frame

section Steps

variable {s : State} {t : Sess} {a : Act}

/-- Every step is one step on the balances. -/
theorem balances_step (en : s.enabled a) : Table.Step s.balances a.actor (s.effect a).balances := by
  cases a with
  | update t => exact .write t _ _ en.2.1
  | insert t | merge t => exact .write t _ _ en.2.2.1
  | deleteRow t _ _ _ _ k =>
    show Table.Step _ _ (s.deleteBalance t k)
    unfold deleteBalance
    split
    · exact .same _
    · exact .write t k none en.2.2
  | finish t | fail t | abort t => exact .rollback t
  | commit t | commitLost t | commitPlant t | commitSweep t => exact .commit t
  | _ => exact .same _

/-- Every step is one step on the ledger. -/
theorem ledger_step (en : s.enabled a) : Table.Step s.ledger a.actor (s.effect a).ledger := by
  cases a with
  | claim t | stamp t => exact .write t _ _ en.2.1
  | reownRow t _ _ p _ k =>
    show Table.Step _ _ (s.reownEntry t p k)
    unfold reownEntry
    split
    · exact .same _
    · split
      · exact .write t k _ en.2.2
      · exact .same _
  | finish t | fail t | abort t => exact .rollback t
  | commit t | commitLost t | commitPlant t | commitSweep t => exact .commit t
  | _ => exact .same _

/-- The selection statement only locks free tombstones, which it sees without
`swept_at`. -/
theorem mem_dueBatch {w p : Uuid} (h : p ∈ s.dueBatch t w) :
    s.purged.Free t p ∧ ∃ row, s.purged.view t p = some row ∧ row.swept = false := by
  have h' := List.mem_of_mem_take h
  rw [List.mem_insertionSort, List.mem_filter, mem_select] at h'
  obtain ⟨⟨row, hrow, hcond⟩, hfree⟩ := h'
  simp only [Bool.and_eq_true, Bool.not_eq_true'] at hcond
  exact ⟨by simpa using hfree, row, hrow, hcond.1⟩

/-- Every step is one step on the tombstones. -/
theorem purged_step (en : s.enabled a) : Table.Step s.purged a.actor (s.effect a).purged := by
  cases a with
  | plant t | stampSwept t => exact .write t _ _ en.2.1
  | sweepSelect t => exact .writeAll t _ _ (fun p hp => (mem_dueBatch hp).1)
  | finish t | fail t | abort t => exact .rollback t
  | commit t | commitLost t | commitPlant t | commitSweep t => exact .commit t
  | _ => exact .same _

/-- A step leaves the program points of the other sessions alone. -/
theorem pc_other (ha : a.actor ≠ some t) : (s.effect a).pc t = s.pc t := by
  cases a with
  | addCurrency | refuse => rfl
  | _ =>
    have hne : t ≠ _ := fun he => ha (congrArg some he.symm)
    simp [effect, goto, rollbackTx, commitTx, commitMovement, reply, update_of_ne hne]

/-- Only the commit of a movement adds to the history. -/
theorem applied_step (en : s.enabled a) :
    (s.effect a).applied = s.applied ∨
      ∃ t j p id b, a.actor = some t ∧ s.pc t = .moving j p (.emitted id b) ∧
        (s.effect a).applied = s.applied ++ (s.entryOf t j).toList := by
  cases a with
  | commit t j p id b | commitLost t j p id b => exact .inr ⟨t, j, p, id, b, rfl, en, rfl⟩
  | _ => exact .inl rfl

theorem nextSeq_le (s : State) (a : Act) : s.nextSeq ≤ (s.effect a).nextSeq := by
  cases a with
  | claim | claimLost | stamp => exact Nat.le_succ _
  | _ => exact Nat.le_refl _

end Steps

/-- What every session knows, and what holds of the committed rows besides. -/
structure Sound (s : State) : Prop where
  sess : ∀ t, s.PcOk t (s.pc t)
  drawn : ∀ a ∈ s.applied, a.row.seq < s.nextSeq
  nil : s.purged.committed Uuid.nil = none

section Movement

variable {s : State} {t : Sess} {j : Job} {p : Uuid} {id : Nat} {b : Int}

/-- What a movement commits. -/
theorem Sound.emitted (h : s.Sound) (hpc : s.pc t = .moving j p (.emitted id b)) :
    ∃ seq, s.Claimed t j p id seq b ∧ s.Latest (j.pair p) seq ∧ s.Moved t j p b ∧
      s.entryOf t j = some ⟨j.attempt, j.call.key, j.row p id seq b⟩ := by
  have hok := h.sess t
  rw [hpc] at hok
  obtain ⟨-, -, -, ⟨seq, hclaim, hlast⟩, hmoved⟩ := hok
  refine ⟨seq, hclaim, hlast, hmoved, ?_⟩
  rw [entryOf, view_of_pending_self hclaim.row.held]
  rfl

end Movement

section Frame

variable {s : State} {t : Sess} {a : Act}

/-- A step of another session does not concern what `t` holds. -/
theorem Sound.frame (h : s.Sound) (en : s.enabled a) (ha : a.actor ≠ some t) :
    Frame s (s.effect a) t where
  balances := (balances_step en).undisturbed ha
  ledger := (ledger_step en).undisturbed ha
  purged := (purged_step en).undisturbed ha
  latest := by
    intro k _ _ hk hlast
    refine ⟨Nat.lt_of_lt_of_le hlast.drawn (nextSeq_le s a), ?_⟩
    rcases applied_step en with happ | ⟨_, j, p, _, _, hu, hpc, happ⟩
    · rw [happ]
      exact hlast.last
    · obtain ⟨_, -, -, hmoved, hentry⟩ := h.emitted hpc
      rw [happ, hentry]
      intro e he hpair
      rw [toList_some, List.mem_append, List.mem_singleton] at he
      rcases he with he | rfl
      · exact hlast.last e he hpair
      · -- the balance row is held by the committing session, not by `t`
        have hpair' : j.pair p = k := hpair
        rw [← hpair', hmoved.row.held] at hk
        cases hk
        exact absurd hu ha

end Frame

section Own

variable {s : State} {t : Sess} {s' : State} {j : Job} {p : Uuid} {due rest : List Uuid}

/-- A rollback leaves no writes behind. -/
theorem clean_rollback (hb : s'.balances = s.balances.rollback t)
    (hl : s'.ledger = s.ledger.rollback t) (hp : s'.purged = s.purged.rollback t) : s'.Clean t :=
  ⟨hb ▸ holdsNone_rollback t _, hl ▸ holdsNone_rollback t _, hp ▸ holdsNone_rollback t _⟩

/-- A commit leaves no writes behind. -/
theorem clean_commit (hb : s'.balances = s.balances.commit t)
    (hl : s'.ledger = s.ledger.commit t) (hp : s'.purged = s.purged.commit t) : s'.Clean t :=
  ⟨hb ▸ holdsNone_commit t _, hl ▸ holdsNone_commit t _, hp ▸ holdsNone_commit t _⟩

/-- A session that decides against its call holds no balance row. -/
theorem PcOk.of_rejection {pc : Pc} {e : Error} (h : s.PcOk t pc) (hj : pc.job = some j)
    (hrej : s.rejection t pc = some e) : s.PcOk t (.closing j (.error e)) := by
  cases pc with
  | opened =>
    obtain ⟨hb, -, hp⟩ := h
    exact ⟨hb, hp⟩
  | moving _ _ st =>
    obtain ⟨hp, -, -, hst⟩ := h
    cases st with
    | checked | moved | stamped | emitted => cases hrej
    | lost | claimed | missed => exact ⟨hst.2, hp⟩
  | _ => cases hj

/-- A transaction without writes may become a sweep. -/
theorem Clean.sweepOk {pc : Pc} (h : s.Clean t) (hcur : pc.current = none) (hrest : pc.rest = [])
    (htodo : pc.TodoOk) : s.SweepOk t pc where
  balances := fun k v hk => absurd hk (h.balances k v)
  ledger := fun k v hk => absurd hk (h.ledger k v)
  purged := fun p v hp => absurd hp (h.purged p v)
  claimed := by
    intro _ hp
    simp [hcur, hrest] at hp
  todo := htodo

/-- A sweep may forget players it has claimed, and keeps or takes up one of
them. -/
theorem SweepOk.advance {pc pc' : Pc} (h : s.SweepOk t pc)
    (hcur : ∀ p, pc.current = some p → pc'.current = some p)
    (hsub : ∀ p, pc'.current = some p ∨ p ∈ pc'.rest → pc.current = some p ∨ p ∈ pc.rest)
    (htodo : pc'.TodoOk) : s.SweepOk t pc' where
  balances := fun k v hk => ⟨(h.balances k v hk).1, (h.balances k v hk).2.imp_right (hcur _)⟩
  ledger := by
    intro k v hk
    obtain ⟨row, hrow, hv, hor⟩ := h.ledger k v hk
    exact ⟨row, hrow, hv, hor.imp_right (hcur _)⟩
  purged := h.purged
  claimed := fun p hp => h.claimed p (hsub p hp)
  todo := htodo

/-- The key is claimed: the ledger row is inserted under an unused key. -/
theorem PcOk.claim {id seq : Nat}
    (h : s.PcOk t (.moving j p .checked)) (hnone : s.ledger.committed j.call.key = none)
    (hb : s'.balances = s.balances)
    (hl : s'.ledger = s.ledger.write t j.call.key (some (j.row p id seq 0)))
    (hp : s'.purged = s.purged) : s'.PcOk t (.moving j p (.claimed id)) := by
  obtain ⟨hpn, hval, hpl, hln, hbn⟩ := h
  refine ⟨hp ▸ hpn, hval, hpl, ⟨seq, ?_, ?_⟩, hb ▸ hbn⟩
  · rw [hl]
    exact hln.write _ _
  · rw [hl, committed_write, hnone]

/-- The balance moves: one write into the balance row of the movement. -/
theorem PcOk.move {id : Nat} {b : Int}
    (h : s.PcOk t (.moving j p (.claimed id)))
    (hbal : b = (s.balances.committed (j.pair p)).getD 0 + j.call.delta) (hrange : InRange b)
    (hb : s'.balances = s.balances.write t (j.pair p) (some b)) (hl : s'.ledger = s.ledger)
    (hp : s'.purged = s.purged) : s'.PcOk t (.moving j p (.moved id b)) := by
  obtain ⟨hpn, hval, hpl, ⟨seq, hrow, hunused⟩, hbn⟩ := h
  refine ⟨hp ▸ hpn, hval, hpl, ⟨seq, hl ▸ hrow, hl ▸ hunused⟩, ?_, ?_, hrange⟩
  · rw [hb]
    exact hbn.write _ _
  · rw [hb, committed_write]
    exact hbal

/-- The ledger row gets its final balance and sequence number. -/
theorem PcOk.stamp
    {id : Nat} {b : Int} {row : LedgerRow}
    (h : s.PcOk t (.moving j p (.moved id b)))
    (hdrawn : ∀ a ∈ s.applied, a.row.seq < s.nextSeq)
    (hview : s.ledger.view t j.call.key = some row)
    (hb : s'.balances = s.balances)
    (hl : s'.ledger = s.ledger.write t j.call.key
      (some { row with balanceAfter := b, seq := s.nextSeq }))
    (hp : s'.purged = s.purged)
    (ha : s'.applied = s.applied)
    (hseq : s'.nextSeq = s.nextSeq + 1) :
    s'.PcOk t (.moving j p (.stamped id b)) := by
  obtain ⟨hpn, hval, hpl, ⟨_, hrow, hunused⟩, hmoved, hbal, hrange⟩ := h
  rw [view_of_pending_self hrow.held, some.injEq] at hview
  subst hview
  refine ⟨hp ▸ hpn, hval, hpl, ⟨s.nextSeq, ⟨?_, ?_⟩, ?_, ?_⟩, hb ▸ hmoved, hb ▸ hbal, hrange⟩
  · rw [hl]
    exact hrow.write _
  · rw [hl, committed_write, hunused]
  · rw [hseq]
    exact Nat.lt_succ_self _
  · rw [ha]
    exact fun e he _ => hdrawn e he

/-- The tombstone is inserted. -/
theorem PcOk.plant {handle : String} (h : s.PcOk t (.planting p handle))
    (hnone : s.purged.committed p = none) (hb : s'.balances = s.balances)
    (hl : s'.ledger = s.ledger) (hp : s'.purged = s.purged.write t p (some ⟨handle, false⟩)) :
    s'.PcOk t .planted := by
  obtain ⟨hclean, hnil⟩ := h
  refine ⟨hb ▸ hclean.balances, hl ▸ hclean.ledger, ?_⟩
  intro q v hq
  rw [hp] at hq ⊢
  have hqp := (hclean.purged.write p _).only q v hq
  subst hqp
  rw [pending_write_self] at hq
  cases hq
  exact ⟨hnil, by rw [committed_write, hnone], _, rfl, rfl⟩

/-- Selecting a batch: the tombstones are locked unchanged. -/
theorem SweepOk.select {w : Uuid} (h : s.SweepOk t (.sweepOpen w))
    (hb : s'.balances = s.balances) (hl : s'.ledger = s.ledger)
    (hp : s'.purged = s.purged.lockAll t (s.dueBatch t w)) :
    s'.SweepOk t (.sweeping (s.dueBatch t w) (s.dueBatch t w) .next) := by
  have hstamped : ∀ p, s.Stamped t p → s'.Stamped t p := by
    rintro p ⟨row, hrow, hsw⟩
    refine ⟨row, ?_, hsw⟩
    rw [hp, pending_lockAll, if_neg, hrow]
    intro hmem
    obtain ⟨-, row', hview, hun⟩ := mem_dueBatch hmem
    rw [view_of_pending_self hrow, some.injEq] at hview
    rw [hview, hun] at hsw
    cases hsw
  constructor
  · intro k v hk
    rw [hb] at hk
    obtain ⟨hv, hor⟩ := h.balances k v hk
    rcases hor with hst | hcur
    · exact ⟨hv, .inl (hstamped _ hst)⟩
    · cases hcur
  · intro k v hk
    rw [hl] at hk
    obtain ⟨row, hrow, hv, hor⟩ := h.ledger k v hk
    rcases hor with hst | hcur
    · exact ⟨row, by rw [hl, hrow], hv, .inl (hstamped _ hst)⟩
    · cases hcur
  · intro p v hpend
    rw [hp, committed_lockAll]
    rw [hp, pending_lockAll] at hpend
    split at hpend
    · rename_i hmem
      cases hpend
      obtain ⟨-, row, hview, hun⟩ := mem_dueBatch hmem
      rcases s.purged.view_cases t p with ⟨v, hv, -⟩ | ⟨-, heq⟩
      · obtain ⟨row₀, -, hcom, hun₀, -⟩ := h.purged p v hv
        exact ⟨row₀, row, hcom, hun₀, hview⟩
      · exact ⟨row, row, heq.symm.trans hview, hun, hview⟩
    · exact h.purged p v hpend
  · intro p hmem
    rcases hmem with hcur | hmem
    · cases hcur
    · have hmem : p ∈ s.dueBatch t w := hmem
      obtain ⟨-, row, hview, -⟩ := mem_dueBatch hmem
      exact ⟨row, by rw [hp, pending_lockAll, if_pos hmem, hview]⟩
  · trivial

/-- The `DELETE` of a sweep reaches a row. -/
theorem SweepOk.deleteRow {todo : List (Uuid × String)} {k : Uuid × String}
    (h : s.SweepOk t (.sweeping due rest (.deleting p todo))) (hk : k ∈ todo)
    (hb : s'.balances = s.deleteBalance t k) (hl : s'.ledger = s.ledger)
    (hp : s'.purged = s.purged) :
    s'.SweepOk t (.sweeping due rest (.deleting p (todo.erase k))) := by
  have hstamped : ∀ q, s'.Stamped t q ↔ s.Stamped t q := by
    intro _
    rw [Stamped, Stamped, hp]
  constructor
  · intro k' v hk'
    rw [hstamped]
    rw [hb, deleteBalance] at hk'
    split at hk'
    · exact h.balances k' v hk'
    · rw [pending_write] at hk'
      split at hk'
      · rename_i hkk
        cases hk'
        exact ⟨rfl, .inr (by rw [hkk, h.todo k hk]; rfl)⟩
      · exact h.balances k' v hk'
  · intro k' v hk'
    rw [hl] at hk' ⊢
    obtain ⟨row, hrow, hv, hor⟩ := h.ledger k' v hk'
    exact ⟨row, hrow, hv, by rw [hstamped]; exact hor⟩
  · rw [hp]
    exact h.purged
  · rw [hp]
    exact h.claimed
  · exact fun k' hk' => h.todo k' (List.mem_of_mem_erase hk')

/-- A sweep erases only players other than the nil uuid. -/
theorem SweepOk.ne_nil {pc : Pc} (h : s.SweepOk t pc)
    (hnil : s.purged.committed Uuid.nil = none) (hp : ∃ v, s.purged.pending p = some (t, v)) :
    p ≠ Uuid.nil := by
  rintro rfl
  obtain ⟨v, hp⟩ := hp
  obtain ⟨_, -, hcom, -⟩ := h.purged _ v hp
  rw [hnil] at hcom
  cases hcom

/-- The re-owning `UPDATE` of a sweep reaches a row. -/
theorem SweepOk.reownRow {todo : List String} {k : String}
    (h : s.SweepOk t (.sweeping due rest (.reowning p todo)))
    (hnil : s.purged.committed Uuid.nil = none) (hb : s'.balances = s.balances)
    (hl : s'.ledger = s.reownEntry t p k) (hp : s'.purged = s.purged) :
    s'.SweepOk t (.sweeping due rest (.reowning p (todo.erase k))) := by
  have hstamped : ∀ q, s'.Stamped t q ↔ s.Stamped t q := by
    intro _
    rw [Stamped, Stamped, hp]
  constructor
  · intro k' v hk'
    rw [hb] at hk'
    rw [hstamped]
    exact h.balances k' v hk'
  · intro k' v hk'
    simp only [hstamped]
    unfold reownEntry at hl
    split at hl
    · rw [hl] at hk' ⊢
      exact h.ledger k' v hk'
    · rename_i row hview
      split at hl
      · rename_i hplayer
        rw [hl, pending_write] at hk'
        rw [hl, committed_write]
        split at hk'
        · rename_i hkk
          subst hkk
          cases hk'
          -- a row it already re-owned would be seen under the nil uuid
          have hfree : ∀ w, s.ledger.pending k' ≠ some (t, w) := by
            intro w hw
            obtain ⟨_, -, rfl, -⟩ := h.ledger k' w hw
            rw [view_of_pending_self hw, some.injEq] at hview
            obtain ⟨_, hprow⟩ := h.claimed p (.inl rfl)
            refine h.ne_nil hnil ⟨_, hprow⟩ ?_
            rw [← hplayer, ← hview]
          rw [view_of_not_holder hfree] at hview
          exact ⟨row, hview, rfl, .inr (by rw [hplayer]; rfl)⟩
        · exact h.ledger k' v hk'
      · rw [hl] at hk' ⊢
        exact h.ledger k' v hk'
  · rw [hp]
    exact h.purged
  · rw [hp]
    exact h.claimed
  · trivial

/-- The sweep stamps the player whose rows it erased. -/
theorem SweepOk.stampSwept
    {row : PurgedRow}
    (h : s.SweepOk t (.sweeping due rest (.reowning p [])))
    (hb : s'.balances = s.balances)
    (hl : s'.ledger = s.ledger)
    (hp : s'.purged = s.purged.write t p (some { row with swept := true })) :
    s'.SweepOk t (.sweeping due rest .next) := by
  have hself : s'.Stamped t p := ⟨_, by rw [hp]; exact pending_write_self t p _ _, rfl⟩
  have hstamped : ∀ q, s.Stamped t q ∨ some p = some q → s'.Stamped t q := by
    rintro q (⟨row', hrow', hsw⟩ | hq)
    · by_cases hqp : q = p
      · exact hqp ▸ hself
      · exact ⟨row', by rw [hp, pending_write_of_ne t _ _ hqp, hrow'], hsw⟩
    · cases hq
      exact hself
  constructor
  · intro k v hk
    rw [hb] at hk
    obtain ⟨hv, hor⟩ := h.balances k v hk
    exact ⟨hv, .inl (hstamped _ hor)⟩
  · intro k v hk
    rw [hl] at hk ⊢
    obtain ⟨row', hrow', hv, hor⟩ := h.ledger k v hk
    exact ⟨row', hrow', hv, .inl (hstamped _ hor)⟩
  · intro q v hq
    rw [hp, committed_write]
    rw [hp, pending_write] at hq
    split at hq
    · rename_i hqp
      subst hqp
      cases hq
      obtain ⟨_, hrow'⟩ := h.claimed q (.inl rfl)
      obtain ⟨row₀, -, hcom, hun, -⟩ := h.purged q _ hrow'
      exact ⟨row₀, _, hcom, hun, rfl⟩
    · exact h.purged q v hq
  · intro q hq
    rcases hq with hcur | hq
    · cases hcur
    · rw [hp, pending_write]
      split
      · exact ⟨_, rfl⟩
      · exact h.claimed q (.inr hq)
  · trivial

/-- The session moved to `pc`. -/
theorem pcOk_at (pc : Pc) (hpc : s'.pc = update s.pc t pc)
    (h : s'.PcOk t pc) : s'.PcOk t (s'.pc t) := by
  rw [hpc, update_self]
  exact h

/-- The session moved to `pc` and touched no table. -/
theorem pcOk_goto {pc : Pc} (h : s.PcOk t pc) : (s.goto t pc).PcOk t ((s.goto t pc).pc t) :=
  pcOk_at pc rfl (h.frame (frame_of_eq rfl rfl rfl rfl (Nat.le_refl _)))

theorem Sound.own_sweep {a : Act} (h : s.Sound) (en : s.enabled a) (ha : a.actor = some t)
    (hsweep : a.sweeps = true) : (s.effect a).PcOk t ((s.effect a).pc t) := by
  have hok : ∀ {pc}, s.pc t = pc → s.PcOk t pc := fun hpc => hpc ▸ h.sess t
  cases a with
  | sweepOpen =>
    cases ha
    have hclean : s.Clean t := hok en
    exact pcOk_goto (hclean.sweepOk rfl rfl trivial)
  | sweepSelect u w =>
    cases ha
    have hsw : s.SweepOk t (.sweepOpen w) := hok en
    exact pcOk_at (.sweeping _ _ .next) rfl (hsw.select rfl rfl rfl)
  | deleteStart u due p rest =>
    cases ha
    have hsw : s.SweepOk t (.sweeping due (p :: rest) .next) := hok en
    refine pcOk_goto (hsw.advance (fun q hq => by cases hq) ?_ ?_)
    · rintro q (hq | hq)
      · cases hq
        exact .inr List.mem_cons_self
      · exact .inr (List.mem_cons_of_mem p hq)
    · intro k hk
      obtain ⟨-, -, hkp⟩ := mem_select.1 hk
      simpa using hkp
  | deleteRow u due rest p todo k =>
    cases ha
    have hsw : s.SweepOk t (.sweeping due rest (.deleting p todo)) := hok en.1
    exact pcOk_at (.sweeping due rest (.deleting p (todo.erase k))) rfl
      (hsw.deleteRow en.2.1 rfl rfl rfl)
  | reownStart u due rest p =>
    cases ha
    have hsw : s.SweepOk t (.sweeping due rest (.deleting p [])) := hok en
    exact pcOk_goto (hsw.advance (fun q hq => hq) (fun q hq => hq) trivial)
  | reownRow u due rest p todo k =>
    cases ha
    have hsw : s.SweepOk t (.sweeping due rest (.reowning p todo)) := hok en.1
    exact pcOk_at (.sweeping due rest (.reowning p (todo.erase k))) rfl
      (hsw.reownRow h.nil rfl rfl rfl)
  | stampSwept u due rest p =>
    cases ha
    have hsw : s.SweepOk t (.sweeping due rest (.reowning p [])) := hok en.1
    exact pcOk_at (.sweeping due rest .next) rfl (hsw.stampSwept rfl rfl rfl)
  | sweepMore u due last =>
    cases ha
    have hsw : s.SweepOk t (.sweeping due [] .next) := hok en.1
    exact pcOk_goto (hsw.advance (fun q hq => by cases hq) (fun q hq => hq) trivial)
  | sweepEnd u due =>
    cases ha
    have hsw : s.SweepOk t (.sweeping due [] .next) := hok en.1
    exact pcOk_goto (hsw.advance (fun q hq => by cases hq) (fun q hq => hq) trivial)
  | sweepBudget u due rest =>
    cases ha
    have hsw : s.SweepOk t (.sweeping due rest .next) := hok en.1
    exact pcOk_goto (hsw.advance (fun q hq => by cases hq)
        (fun q hq => hq.elim (fun hc => by cases hc) (fun hm => by cases hm)) trivial)
  | _ => cases hsweep

/-- A step of `t` establishes what `t` knows at its next program point. -/
theorem Sound.own {a : Act} (h : s.Sound) (en : s.enabled a) (ha : a.actor = some t) :
    (s.effect a).PcOk t ((s.effect a).pc t) := by
  cases hsweep : a.sweeps with
  | true => exact h.own_sweep en ha hsweep
  | false =>
  have hok : ∀ {pc}, s.pc t = pc → s.PcOk t pc := fun hpc => hpc ▸ h.sess t
  cases a with
  | addCurrency | refuse => cases ha
  | «open» =>
    cases ha
    exact pcOk_at (.opened _) rfl
      (Clean.frame (hok en.1) (frame_of_eq rfl rfl rfl rfl (Nat.le_refl _)))
  | check u j p =>
    cases ha
    obtain ⟨hpc, hval, hpl, -⟩ := en
    have hclean : s.Clean t := hok hpc
    exact pcOk_goto ⟨hclean.purged, hval, hpl, hclean.ledger, hclean.balances⟩
  | claim =>
    cases ha
    exact pcOk_at _ rfl (PcOk.claim (hok en.1) en.2.2 rfl rfl rfl)
  | claimLost u j p =>
    cases ha
    have hst := hok en.1
    exact pcOk_at (.moving j p .lost) rfl (hst.frame (frame_of_eq rfl rfl rfl rfl (Nat.le_succ _)))
  | replay u j =>
    cases ha
    obtain ⟨hp, -, -, -, hb⟩ := hok en.1
    exact pcOk_goto ⟨hb, hp⟩
  | update =>
    cases ha
    obtain ⟨hpc, -, hcom, hrange⟩ := en
    exact pcOk_at _ rfl (PcOk.move (hok hpc) (by rw [hcom]; rfl) hrange rfl rfl rfl)
  | updateMiss u j p id =>
    cases ha
    have hst := hok en.1
    exact pcOk_goto hst
  | insert u j p id =>
    cases ha
    obtain ⟨hpc, -, -, hcom, hrange, -⟩ := en
    have hst := hok hpc
    replace hst : s.PcOk t (.moving j p (.claimed id)) := hst
    refine pcOk_at _ rfl (PcOk.move hst ?_ hrange rfl rfl rfl)
    rw [hcom]
    exact (Int.zero_add _).symm
  | merge u j p id =>
    cases ha
    obtain ⟨hpc, -, -, hcom, -, hrange⟩ := en
    have hst := hok hpc
    replace hst : s.PcOk t (.moving j p (.claimed id)) := hst
    exact pcOk_at _ rfl (PcOk.move hst (by rw [hcom]; rfl) hrange rfl rfl rfl)
  | stamp =>
    cases ha
    exact pcOk_at _ rfl (PcOk.stamp (hok en.1) h.drawn en.2.2.1 rfl rfl rfl rfl rfl)
  | emit u j p id b =>
    cases ha
    have hst := hok en
    exact pcOk_goto hst
  | reject u j e =>
    cases ha
    exact pcOk_goto ((h.sess t).of_rejection en.1 en.2)
  | finish | fail | abort =>
    cases ha
    exact pcOk_at .idle rfl (clean_rollback rfl rfl rfl)
  | commit | commitLost | commitPlant | commitSweep =>
    cases ha
    exact pcOk_at .idle rfl (clean_commit rfl rfl rfl)
  | plantOpen u p handle =>
    cases ha
    have hclean : s.Clean t := hok en.1
    exact pcOk_goto ⟨hclean, en.2⟩
  | plant =>
    cases ha
    exact pcOk_at _ rfl (PcOk.plant (hok en.1) en.2.2 rfl rfl rfl)
  | plantLost =>
    cases ha
    obtain ⟨hclean, -⟩ := hok en.1
    exact pcOk_goto ⟨hclean.balances, hclean.ledger, fun q v hq => absurd hq (hclean.purged q v)⟩
  | _ => cases hsweep

end Own

end State
end Swarog.Wallet
