import Swarog.AsyncEvents.Delivery

/-!
# Operator decisions

`record_failure` compares the cursor and the failure count of the row with the
claimed ones, but not its state.  On the error arm the row lock is still held
and the row is active.  On the timeout arm the lock is gone before the failure
is recorded, so an operator command queued behind the lock lands in between; a
failure that reaches the pause threshold then overwrites it.

`stale_failure_overrides_retirement` is such a run.  `HeldBack` is the condition
on runs under which operator decisions stand.
-/

namespace Swarog.AsyncEvents.Plane

open Pg TransitionSystem

/-- The statements of `deliver_one_on` and `record_failure`. -/
def WorkerStep (st : Plane) : Act → Prop
  | .begin _ (.delivering _) | .claim _ _ _ | .selectNone _ _ | .select _ _ _
  | .handle _ _ _ | .advance _ _ _ _ | .fault _ _ _ | .recordFault _ _ _ _
  | .timeout _ _ _ | .recordStale _ _ _ | .dropStale _ => True
  | .commit s | .abort s =>
    match (st.session s).role with
    | .delivering _ | .claimed _ | .drained _ | .handling _ _ | .advanced _ _
    | .faulted _ | .recorded _ | .poisoned _ => True
    | _ => False
  | _ => False

/-- The operator steps that put a subscription back to work: `resume`, and the
commit of a `skip`. -/
def Reactivates (st : Plane) (id : String) : Act → Prop
  | .operator .resume id' _ => id' = id
  | .commit s =>
    match (st.session s).role with
    | .skipAdvanced id' _ => id' = id
    | _ => False
  | _ => False

/-- No failure of a timed-out delivery that reaches the pause threshold is
recorded on a row that was retired since and still carries the claimed cursor
and failure count, and no operator pauses a retired subscription. -/
def HeldBack (_ : Plane) : Act → Prop
  | .recordStale c row _ => row.StillClaimed c → c.failures + 1 ≥ pauseAfter → row.state ≠ .retired
  | .operator .pause _ row => row.state ≠ .retired
  | _ => True

instance (st : Plane) (a : Act) : Decidable (HeldBack st a) := by
  induction a using Act.casesOn with
  | operator cmd => induction cmd using Command.casesOn <;> dsimp only [HeldBack] <;> infer_instance
  | _ => dsimp only [HeldBack]; infer_instance

section Decisions

variable {st st' : Plane} {a : Act}

theorem state_recordFailure (row : SubRow) (c : Claim) (error : String) (now : Nat) :
    (row.recordFailure c error now).state = row.state ∨
      row.StillClaimed c ∧ c.failures + 1 ≥ pauseAfter ∧
        (row.recordFailure c error now).state = .paused := by
  unfold SubRow.recordFailure
  split
  · rename_i hcas
    by_cases hpause : c.failures + 1 ≥ pauseAfter
    · exact .inr ⟨hcas, hpause, by simp [hpause]⟩
    · exact .inl (by simp [hpause])
  · exact .inl rfl

/-- A worker step changes a state only from active to paused. -/
theorem worker_state_step (h : Inv st) (hg : HeldBack st a) (en : st.enabled a)
    (hw : st.WorkerStep a) {id : String} {row row' : SubRow}
    (hrow : st.subs.committed id = some row) (hrow' : (st.effect a).subs.committed id = some row') :
    row'.state = row.state ∨ row.state = .active ∧ row'.state = .paused := by
  have hstep := row_step h en id
  rw [hrow, hrow'] at hstep
  generalize st.newlyHandledOf a id = new at hstep
  cases hstep with
  | kept | delivered => exact .inl rfl
  | operated cmd _ act =>
    subst act
    exact False.elim hw
  | stale c _ error act =>
    subst act
    rcases state_recordFailure row c error st.clock with heq | ⟨hcas, hpause, hpaused⟩
    · exact .inl heq
    · cases hs : row.state with
      | active => exact .inr ⟨rfl, hpaused⟩
      | paused => exact .inl hpaused
      | retired => exact absurd hs (hg hcas hpause)
  | failed s c _ error now act role same serves =>
    rcases state_recordFailure row c error now with heq | ⟨-, -, hpaused⟩
    · exact .inl heq
    · exact .inr ⟨serves.active, hpaused⟩
  | skipped s e _ reason now act role =>
    subst act
    simp only [WorkerStep, role] at hw

/-- A retired subscription stays retired at every step that is not a `resume`
or a `skip` of it. -/
theorem retired_step (h : Inv st) (hg : HeldBack st a) {id : String} {row : SubRow}
    (hr : ¬ st.Reactivates id a) (en : st.enabled a) (hrow : st.subs.committed id = some row)
    (hret : row.state = .retired) :
    ∃ row', (st.effect a).subs.committed id = some row' ∧ row'.state = .retired := by
  have hstep := row_step h en id
  obtain ⟨row', hrow', -⟩ := hstep.same hrow
  refine ⟨row', hrow', ?_⟩
  rw [hrow, hrow'] at hstep
  generalize st.newlyHandledOf a id = new at hstep
  cases hstep with
  | kept => exact hret
  | operated cmd _ act =>
    subst act
    cases cmd with
    | retry => exact hret
    | pause => exact absurd hret hg
    | resume => exact absurd rfl hr
    | retire => rfl
  | stale c _ error act =>
    subst act
    rcases state_recordFailure row c error st.clock with heq | ⟨hcas, hpause, -⟩
    · exact heq.trans hret
    · exact absurd hret (hg hcas hpause)
  | delivered => exact hret
  | failed s c _ error now act role same serves =>
    have hactive := serves.active
    rw [hret] at hactive
    cases hactive
  | skipped s e _ reason now act role =>
    subst act
    simp [Reactivates, role] at hr

/-- Only an operator changes an operator decision, in the runs that are held
back: a worker step changes a state only from active to paused, and a retired
subscription stays retired until a `resume` or a `skip` of it. -/
theorem operator_decision_stands {st : Plane} (h : system.Reachable HeldBack st) :
    (∀ a id row row', st.enabled a → HeldBack st a → st.WorkerStep a →
      st.subs.committed id = some row → (st.effect a).subs.committed id = some row' →
        row'.state = row.state ∨ row.state = .active ∧ row'.state = .paused) ∧
    (∀ st' id row, st.subs.committed id = some row → row.state = .retired →
      system.Reaches (fun r a => HeldBack r a ∧ ¬ r.Reactivates id a) st st' →
        ∃ row', st'.subs.committed id = some row' ∧ row'.state = .retired) := by
  have hi := inv_reachable h
  constructor
  · intro _ _ _ _ en hg hw hrow hrow'
    exact worker_state_step hi hg en hw hrow hrow'
  · intro st' id row hrow hret hrun
    have hall : Inv st' ∧ ∃ row', st'.subs.committed id = some row' ∧ row'.state = .retired := by
      refine hrun.preserves ?_ ⟨hi, row, hrow, hret⟩
      rintro _ _ ⟨hir, _, hrow₁, hret₁⟩ ⟨hg, hno⟩ en
      exact ⟨inv_step hir en, retired_step hir hg hno en hrow₁ hret₁⟩
    exact hall.2

/-- A delivery times out, its backend is terminated, and an operator retires the
subscription before the failure is recorded. -/
def earlyTimeoutRun : List Act :=
  let row := sampleEntry.newRow 1 ⟨0, 0, 0⟩ 0
  let event := sampleEvent 4 1 "e1"
  let claim : Claim := ⟨sampleEntry, ⟨0, 0, 0⟩, 0⟩
  [ .begin 0 (.reconciling sampleEntry), .register 0 sampleEntry 1, .commit 0,
    .begin 1 .producer, .appendLock 1 sampleAppend, .appendRead 1 sampleAppend,
    .appendInsert 1 sampleAppend 1 "e1", .commit 1,
    .begin 3 (.delivering sampleEntry), .claim 3 sampleEntry row,
    .select 3 claim event, .timeout 3 claim event, .abort 3,
    .operator .retire sampleEntry.id row ]

theorem earlyTimeoutRun_runs : (system.exec HeldBack system.start earlyTimeoutRun).isSome := by
  decide

/-- The state after `earlyTimeoutRun`. -/
def earlyTimeoutState : Plane :=
  TransitionSystem.final HeldBack earlyTimeoutRun earlyTimeoutRun_runs

/-- The failure of the timed-out delivery is recorded. -/
def earlyRecord : Act :=
  .recordStale ⟨sampleEntry, ⟨0, 0, 0⟩, 0⟩
    (Command.retire.apply (sampleEntry.newRow 1 ⟨0, 0, 0⟩ 0) 0) "handler timeout"

theorem operator_decision_stands_run :
    earlyTimeoutState.enabled earlyRecord ∧
      ∃ row', (earlyTimeoutState.effect earlyRecord).subs.committed sampleEntry.id =
          some row' ∧ row'.state = .retired := by
  have hreach : system.Reachable HeldBack earlyTimeoutState :=
    reachable_final HeldBack earlyTimeoutRun earlyTimeoutRun_runs
  have hrow : earlyTimeoutState.subs.committed sampleEntry.id = some
      (Command.retire.apply (sampleEntry.newRow 1 ⟨0, 0, 0⟩ 0) 0) := by decide
  have hen : earlyTimeoutState.enabled earlyRecord := by decide
  have hcond : HeldBack earlyTimeoutState earlyRecord ∧
      ¬ earlyTimeoutState.Reactivates sampleEntry.id earlyRecord :=
    ⟨fun _ hpause => absurd hpause (by decide), not_false⟩
  have hrun := Reaches.tail (T := system)
    (G := fun r a => HeldBack r a ∧ ¬ r.Reactivates sampleEntry.id a)
    (s := earlyTimeoutState) (t := earlyTimeoutState) earlyRecord
    (.refl earlyTimeoutState) hcond hen
  exact ⟨hen, (operator_decision_stands hreach).2 _ _ _ hrow rfl hrun⟩

end Decisions

section Counterexample

/-- The row after a number of failed deliveries, five minutes apart. -/
def failedRow : Nat → SubRow
  | 0 => sampleEntry.newRow 1 ⟨0, 0, 0⟩ 0
  | n + 1 => (failedRow n).recordFailure ⟨sampleEntry, ⟨0, 0, 0⟩, n⟩ "boom" (n * 300000000)

/-- One failed delivery, and the wait until the next one is due. -/
def failedDelivery (n : Nat) : List Act :=
  let claim : Claim := ⟨sampleEntry, ⟨0, 0, 0⟩, n⟩
  let event := sampleEvent 4 1 "e1"
  [ .begin 3 (.delivering sampleEntry), .claim 3 sampleEntry (failedRow n),
    .select 3 claim event, .fault 3 claim event,
    .recordFault 3 claim (failedRow n) "boom", .commit 3, .tick 300000000 ]

/-- Nineteen deliveries fail, the twentieth times out; its backend is terminated
and an operator retires the subscription. -/
def lateTimeoutRun : List Act :=
  let claim : Claim := ⟨sampleEntry, ⟨0, 0, 0⟩, 19⟩
  let event := sampleEvent 4 1 "e1"
  [ .begin 0 (.reconciling sampleEntry), .register 0 sampleEntry 1, .commit 0,
    .begin 1 .producer, .appendLock 1 sampleAppend, .appendRead 1 sampleAppend,
    .appendInsert 1 sampleAppend 1 "e1", .commit 1 ] ++
  (List.range 19).flatMap failedDelivery ++
  [ .begin 3 (.delivering sampleEntry), .claim 3 sampleEntry (failedRow 19),
    .select 3 claim event, .timeout 3 claim event, .abort 3,
    .operator .retire sampleEntry.id (failedRow 19) ]

theorem lateTimeoutRun_runs : (system.exec anyStep system.start lateTimeoutRun).isSome := by
  decide +kernel

/-- The state after `lateTimeoutRun`. -/
def lateTimeoutState : Plane :=
  TransitionSystem.final TransitionSystem.anyStep lateTimeoutRun lateTimeoutRun_runs

/-- The recording of the timed-out delivery turns the retired subscription into
a paused one. -/
theorem stale_failure_overrides_retirement :
    ∃ st a id row row', system.Reachable TransitionSystem.anyStep st ∧
      st.enabled a ∧ st.WorkerStep a ∧
      st.subs.committed id = some row ∧ row.state = .retired ∧
      (st.effect a).subs.committed id = some row' ∧ row'.state = .paused := by
  refine ⟨lateTimeoutState,
    .recordStale ⟨sampleEntry, ⟨0, 0, 0⟩, 19⟩
      (Command.retire.apply (failedRow 19) 5700000000) "handler timeout",
    sampleEntry.id, Command.retire.apply (failedRow 19) 5700000000,
    (Command.retire.apply (failedRow 19) 5700000000).recordFailure
      ⟨sampleEntry, ⟨0, 0, 0⟩, 19⟩ "handler timeout" 5700000000, ?_, ?_, trivial, ?_, rfl,
    ?_, ?_⟩
  · exact reachable_final _ lateTimeoutRun lateTimeoutRun_runs
  · decide +kernel
  · decide +kernel
  · decide +kernel
  · decide +kernel

end Counterexample

end Swarog.AsyncEvents.Plane
