import Swarog.AsyncEvents.Invariant

/-!
# Gap-free, ordered, exactly-once delivery

For every subscription the committed deliveries and skips are the events of its
stream between its initial cursor and its current cursor, in log order, each
once.  The bookkeeping is `Frontier.Covers`; `covers_step` shows that every
statement keeps it, reading off from `RowStep` which statement moved the cursor.

The visible events may shrink by retention.  As long as retention deletes
nothing, the visible events are all committed events, which gives the statement
for the whole log.
-/

namespace Swarog.AsyncEvents.Plane

open Pg

/-- The positions handled for a subscription, in commit order. -/
def handledOf (st : Plane) (id : String) : List Position :=
  (st.handled.filter (fun x => x.sub = id)).map (·.pos)

/-- The bookkeeping of all subscriptions. -/
structure Delivered (st : Plane) : Prop where
  covers : ∀ id row, st.subs.committed id = some row →
    ∃ start, st.initial id = some start ∧
      Frontier.Covers st.front st.events row.Selects start row.cursor (st.handledOf id)
  fresh : ∀ id, st.subs.committed id = none → st.handledOf id = []

section Step

variable {st : Plane} {a : Act} {id : String} {row row' : SubRow}

theorem handled_step (st : Plane) (a : Act) :
    (st.effect a).handled = st.handled ++ st.newlyHandled a := by
  cases a with
  | commit => rfl
  | ensureHistory | seedHistory =>
    simp only [effect, newlyHandled, List.append_nil]
    split
    · rfl
    · split <;> rfl
  | register =>
    simp only [effect, newlyHandled, List.append_nil]
    split <;> rfl
  | _ => exact (List.append_nil _).symm

theorem handledOf_step (st : Plane) (a : Act) (id : String) :
    (st.effect a).handledOf id = st.handledOf id ++ st.newlyHandledOf a id := by
  simp [handledOf, newlyHandledOf, handled_step]

/-- The initial cursor of an existing subscription never changes. -/
theorem initial_kept (hrow : st.subs.committed id = some row) :
    (st.effect a).initial id = st.initial id := by
  cases a with
  | commit s =>
    show st.committedInitial s (st.session s).role id = st.initial id
    cases (st.session s).role with
    | registered entry =>
      cases hold : st.subs.committed entry.id with
      | some => simp [committedInitial, hold]
      | none =>
        have hne : id ≠ entry.id := by
          rintro rfl
          rw [hrow] at hold
          cases hold
        simp [committedInitial, hold, Function.update_of_ne hne]
    | _ => rfl
  | ensureHistory | seedHistory =>
    simp only [effect]
    split
    · rfl
    · split <;> rfl
  | register =>
    simp only [effect]
    split <;> rfl
  | _ => rfl

/-- A registration records the cursor it inserted. -/
theorem initial_registered {s : Sess} {entry : SubEntry}
    (hr : (st.session s).role = .registered entry) (hnone : st.subs.committed entry.id = none)
    (hrow : (st.effect (.commit s)).subs.committed entry.id = some row) :
    (st.effect (.commit s)).initial entry.id = some row.cursor := by
  have hview : st.subs.view s entry.id = some row :=
    (Table.committed_commit s st.subs entry.id).symm.trans hrow
  show st.committedInitial s (st.session s).role entry.id = some row.cursor
  rw [hr]
  simp [committedInitial, hnone, hview]

theorem selects_of_same (hs : row.Same row') : row'.Selects = row.Selects := by
  unfold SubRow.Selects
  rw [hs.topic, hs.contractVersion]

section

variable (h : Inv st) (hd : Delivered st) (en : st.enabled a)
include h hd en

/-- Every statement keeps the bookkeeping. -/
theorem covers_step (hrow' : (st.effect a).subs.committed id = some row') :
    ∃ start, (st.effect a).initial id = some start ∧
      Frontier.Covers (st.effect a).front (st.effect a).events row'.Selects start
        row'.cursor ((st.effect a).handledOf id) := by
  have hadv := (front_step h en).advance
  have hstep := row_step h en id
  rw [handledOf_step]
  cases hold : st.subs.committed id with
  | none =>
    -- the row is new: its registration commits
    rw [hd.fresh id hold]
    rw [hold, hrow'] at hstep
    generalize hnew : st.newlyHandledOf a id = new at hstep
    cases hstep with
    | registered _ _ _ _ _ act role same =>
      subst act same
      refine ⟨_, initial_registered role hold hrow', ?_⟩
      exact Frontier.Covers.init _ _ _ _
  | some row =>
    obtain ⟨start, hstart, hc⟩ := hd.covers id row hold
    obtain ⟨_, hrow'', hsame⟩ := hstep.same hold
    rw [hrow'] at hrow''
    cases hrow''
    refine ⟨start, (initial_kept hold).trans hstart, ?_⟩
    rw [selects_of_same hsame]
    have hframe := hc.frame h.wf hadv (events_from (a := a))
    rw [hold, hrow'] at hstep
    generalize hnew : st.newlyHandledOf a id = new at hstep
    cases hstep with
    | kept | operated | stale | failed => simpa using hframe
    | delivered s c e _ now act role same serves next | skipped s e _ reason now act role next =>
      exact hframe.advance (Frontier.Next.frame next h.wf hadv events_from)

/-- A subscription without a row has handled nothing. -/
theorem fresh_step
    (hnone' : (st.effect a).subs.committed id = none) : (st.effect a).handledOf id = [] := by
  have hstep := row_step h en id
  have hnone : st.subs.committed id = none := by
    cases hold : st.subs.committed id with
    | none => rfl
    | some =>
      obtain ⟨_, hrow', -⟩ := hstep.same hold
      rw [hnone'] at hrow'
      cases hrow'
  rw [handledOf_step, hd.fresh id hnone, List.nil_append]
  rw [hnone, hnone'] at hstep
  generalize st.newlyHandledOf a id = new at hstep
  cases hstep
  rfl

theorem delivered_step : Delivered (st.effect a) where
  covers := fun _ _ hrow => covers_step h hd en hrow
  fresh := fun _ hnone => fresh_step h hd en hnone

end

theorem delivered_start : Delivered Plane.start where
  covers := by simp [Plane.start]
  fresh := by simp [Plane.start, handledOf]

/-- The bookkeeping holds in every reachable state, retention included. -/
theorem delivered_reachable {G : Plane → Act → Prop} (h : system.Reachable G st) : Delivered st :=
  h.invariant delivered_start
    (fun _ _ hr hi _ en => delivered_step (inv_reachable hr) hi en)

end Step

section Log

variable {st st' : Plane} {a : Act}

/-- The runs in which retention deletes nothing. -/
def WithoutRetention (_ : Plane) : Act → Prop
  | .gcCommit _ _ _ _ => False
  | _ => True

instance (st : Plane) (a : Act) : Decidable (WithoutRetention st a) := by
  induction a using Act.casesOn <;> dsimp only [WithoutRetention] <;> infer_instance

/-- Only a commit adds to the log. -/
theorem log_of_not_commit (hc : ∀ s, a ≠ .commit s) : (st.effect a).front.log = st.front.log := by
  cases a with
  | commit s => exact absurd rfl (hc s)
  | ensureHistory =>
    simp only [effect]
    split
    · rfl
    · split <;> simp
  | seedHistory =>
    simp only [effect]
    split
    · rfl
    · split <;> rfl
  | register =>
    simp only [effect]
    split <;> simp
  | _ => simp [effect, Frontier.burn, Frontier.share, Frontier.exclude, Frontier.append,
      Frontier.undo, Frontier.close]

/-- Without retention events stay visible. -/
theorem events_kept (hg : WithoutRetention st a) {e : Entry Event} (he : e ∈ st.events) :
    e ∈ (st.effect a).events := by
  cases a with
  | gcCommit => exact False.elim hg
  | commit => exact List.mem_append_left _ he
  | ensureHistory | seedHistory =>
    simp only [effect]
    split
    · exact he
    · split <;> exact he
  | register =>
    simp only [effect]
    split <;> exact he
  | _ => exact he

/-- Without retention every committed event is visible. -/
theorem log_visible (h : system.Reachable WithoutRetention st) :
    ∀ e ∈ st.front.log, e ∈ st.events := by
  refine h.invariant ?_ ?_
  · simp [system, Plane.start]
  · intro st a _ hi hg _ e he
    by_cases hc : ∃ s, a = .commit s
    · obtain ⟨s, rfl⟩ := hc
      have he' : e ∈ (st.committedFront s (st.session s).role).log := he
      have hcase : e ∈ st.front.log ∨ e ∈ st.front.inflight s := by
        cases hr : (st.session s).role with
        | bumped =>
          rw [hr] at he'
          exact .inl he'
        | _ =>
          rw [hr] at he'
          exact List.mem_append.mp he'
      rcases hcase with hold | hnew
      · exact List.mem_append_left _ (hi e hold)
      · exact List.mem_append_right _ hnew
    · have hlog : (system.effect st a).front.log = st.front.log :=
        log_of_not_commit (fun s hs => hc ⟨s, hs⟩)
      rw [hlog] at he
      exact events_kept hg (hi e he)

/-- Nothing becomes visible at or below a closed position, in any run. -/
theorem above_closed_of_reaches {G : Plane → Act → Prop} {p : Position}
    (hrun : system.Reaches G st st') (h : Inv st) (hp : st.front.Closed p) {e : Entry Event}
    (he : e ∈ st'.front.log) (hnew : e ∉ st.front.log) : p < e.pos := by
  have hall : Inv st' ∧ st'.front.Closed p ∧ ∀ f ∈ st'.front.log, f ∈ st.front.log ∨ p < f.pos := by
    refine hrun.preserves ?_
      ⟨h, hp, fun f hf => .inl hf⟩
    rintro r _ ⟨hi, hcl, hlog⟩ - en
    have hadv := (front_step hi en).advance
    refine ⟨inv_step hi en, hcl.advance hadv, ?_⟩
    intro f hf
    by_cases hold : f ∈ r.front.log
    · exact hlog f hold
    · exact .inr (hadv.above_closed hi.wf hcl hf hold)
  rcases hall.2.2 e he with hold | habove
  · exact absurd hold hnew
  · exact habove

end Log

/-- The positions handled for a subscription are delivered or skipped. -/
theorem count_handledOf (st : Plane) (id : String) (p : Position) :
    (st.handledOf id).count p =
      st.handled.count ⟨id, p, .delivered⟩ + st.handled.count ⟨id, p, .skipped⟩ := by
  unfold handledOf
  induction st.handled with
  | nil => rfl
  | cons x _ ih =>
    obtain ⟨sub, pos, how⟩ := x
    by_cases hsub : sub = id
    · subst hsub
      by_cases hpos : pos = p
      · subst hpos
        cases how <;> simp [ih] <;> omega
      · simp [hpos, ih]
    · simp [hsub, ih]

/-- Gap-free, ordered, exactly-once delivery.  In every run of producers,
workers, operators, registrations and generation bumps, and for every
subscription: the handled positions increase; they are positions of committed
events of the stream, above the initial cursor and up to the cursor; every such
event was handled exactly once, by one delivery or by one skip; and no event
above the initial cursor becomes visible later at or below the cursor. -/
theorem delivery_exactly_once {st : Plane} {id : String} {row : SubRow}
    (h : system.Reachable WithoutRetention st) (hrow : st.subs.committed id = some row) :
    ∃ start, st.initial id = some start ∧
      (st.handledOf id).Pairwise (· < ·) ∧
      (∀ p ∈ st.handledOf id, start < p ∧ p ≤ row.cursor ∧
        ∃ e ∈ st.front.log, e.pos = p ∧ row.Selects e.data) ∧
      (∀ e ∈ st.front.log, row.Selects e.data → start < e.pos → e.pos ≤ row.cursor →
        st.handled.count ⟨id, e.pos, .delivered⟩ +
          st.handled.count ⟨id, e.pos, .skipped⟩ = 1) ∧
      (∀ st', system.Reaches TransitionSystem.anyStep st st' →
        ∀ e ∈ st'.front.log, e ∉ st.front.log → start < e.pos → row.cursor < e.pos) := by
  obtain ⟨start, hstart, hc⟩ := (delivered_reachable h).covers id row hrow
  refine ⟨start, hstart, hc.sorted, ?_, ?_, ?_⟩
  · intro p hp
    obtain ⟨hlt, hle⟩ := hc.within p hp
    exact ⟨hlt, hle, hc.genuine p hp⟩
  · intro e he hsel hlt hle
    rw [← count_handledOf]
    exact hc.count_eq_one (log_visible h e he) hsel hlt hle
  · intro _ hrun _ he hnew hlt
    rcases hc.closed with heq | hclosed
    · rw [heq]
      exact hlt
    · exact above_closed_of_reaches hrun (inv_reachable h) hclosed he hnew

section Example

/-- A subscription to `player.registered` from the beginning of the log. -/
def sampleEntry : SubEntry :=
  ⟨"inventory.player-registered.v1", .genesis, "player.registered", 1, none⟩

/-- An append to the subscribed stream. -/
def sampleAppend : AppendReq := ⟨"player.registered", 1, "payload"⟩

/-- The events of two producers; the one with the smaller transaction
identifier commits last. -/
def sampleEvent (xid : Nat) (tie : Int) (eventId : String) : Entry Event :=
  ⟨⟨1, xid, tie⟩, ⟨"player.registered", 1, eventId, "payload", 0⟩⟩

/-- Two producers commit out of order; one event is delivered, a second delivery
fails and its event is skipped by an operator. -/
def deliveryRun : List Act :=
  let row := sampleEntry.newRow 1 ⟨0, 0, 0⟩ 0
  let first := sampleEvent 4 2 "e1"
  let second := sampleEvent 5 1 "e2"
  let claim₁ : Claim := ⟨sampleEntry, ⟨0, 0, 0⟩, 0⟩
  let claim₂ : Claim := ⟨sampleEntry, first.pos, 0⟩
  let row₁ := row.advance first.pos 0
  let row₂ := row₁.recordFailure claim₂ "boom" 0
  [ .begin 0 (.reconciling sampleEntry), .register 0 sampleEntry 1, .commit 0,
    .begin 1 .producer, .assignXid 1, .begin 2 .producer,
    .appendLock 2 sampleAppend, .appendRead 2 sampleAppend,
    .appendInsert 2 sampleAppend 1 "e2", .commit 2,
    .appendLock 1 sampleAppend, .appendRead 1 sampleAppend,
    .appendInsert 1 sampleAppend 1 "e1", .commit 1,
    .begin 3 (.delivering sampleEntry), .claim 3 sampleEntry row,
    .select 3 claim₁ first, .handle 3 claim₁ first,
    .advance 3 claim₁ first row, .commit 3,
    .begin 3 (.delivering sampleEntry), .claim 3 sampleEntry row₁,
    .select 3 claim₂ second, .handle 3 claim₂ second, .fault 3 claim₂ second,
    .recordFault 3 claim₂ row₁ "boom", .commit 3,
    .begin 4 (.skipping sampleEntry.id), .skipClaim 4 sampleEntry.id row₂,
    .skipSelect 4 sampleEntry.id row₂ second,
    .skipAdvance 4 sampleEntry.id row₂ second "bad payload", .commit 4 ]

theorem deliveryRun_runs : (system.exec WithoutRetention system.start deliveryRun).isSome := by
  decide

/-- The state after `deliveryRun`. -/
def deliveryState : Plane := TransitionSystem.final WithoutRetention deliveryRun deliveryRun_runs

theorem delivery_exactly_once_run :
    deliveryState.handled =
        [⟨sampleEntry.id, ⟨1, 4, 2⟩, .delivered⟩, ⟨sampleEntry.id, ⟨1, 5, 1⟩, .skipped⟩] ∧
      ∃ row, deliveryState.subs.committed sampleEntry.id = some row ∧
        row.cursor = ⟨1, 5, 1⟩ ∧
        ∀ e ∈ deliveryState.front.log, row.Selects e.data →
          e.pos ≤ row.cursor → ⟨0, 0, 0⟩ < e.pos →
            deliveryState.handled.count ⟨sampleEntry.id, e.pos, .delivered⟩ +
              deliveryState.handled.count ⟨sampleEntry.id, e.pos, .skipped⟩ = 1 := by
  have hreach : system.Reachable WithoutRetention deliveryState :=
    TransitionSystem.reachable_final WithoutRetention deliveryRun deliveryRun_runs
  have hrow : deliveryState.subs.committed sampleEntry.id = some
      ((((sampleEntry.newRow 1 ⟨0, 0, 0⟩ 0).advance ⟨1, 4, 2⟩ 0).recordFailure
        ⟨sampleEntry, ⟨1, 4, 2⟩, 0⟩ "boom" 0).skip (sampleEvent 5 1 "e2")
          "bad payload" 0) := by decide
  have hinitial : deliveryState.initial sampleEntry.id = some ⟨0, 0, 0⟩ := by decide
  obtain ⟨start, hstart, -, -, hcount, -⟩ := delivery_exactly_once hreach hrow
  rw [hinitial] at hstart
  cases hstart
  exact ⟨by decide, _, hrow, rfl, fun e he hsel hle hlt => hcount e he hsel hlt hle⟩

end Example

end Swarog.AsyncEvents.Plane
