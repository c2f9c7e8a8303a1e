import Swarog.AsyncEvents.Schema
import Swarog.Pg.Session

/-!
# The event plane as a transition system

Producers append events, workers of any number of replicas deliver them,
operators act on subscriptions, registration creates subscription rows, the
generation is bumped and retention deletes old events.  All of them are
Postgres sessions working on shared tables.  One label is one statement of one
session, or a `COMMIT` or `ROLLBACK`, and its guard says when the statement can
run: a statement that needs a row lock or an advisory lock waits until the lock
is free.

The worker is `deliver_one_on`.  Its timeout arm terminates the backend of the
delivery and records the failure later, from another connection; in between the
obligation to record is kept in `stale`.

`initial` and `handled` are history: the cursor a subscription row was inserted
with, and the committed deliveries and skips in commit order.
-/

namespace Swarog.AsyncEvents

open Pg

/-- How an event was dealt with. -/
inductive How
  | delivered
  | skipped
deriving DecidableEq

/-- One event dealt with for one subscription. -/
structure Handled where
  sub : String
  pos : Position
  how : How
deriving DecidableEq

/-- The arguments of `append_event`. -/
structure AppendReq where
  topic : String
  version : Int
  payload : String
deriving DecidableEq

/-- Progress inside `append_event`. -/
inductive Appending
  | idle
  | locked (req : AppendReq)
  | stamped (req : AppendReq) (generation : Int)
deriving DecidableEq

/-- The stream and retention days `gc_topic` works on. -/
structure GcTarget where
  topic : String
  version : Int
  days : Int
deriving DecidableEq

inductive Role
  | closed
  | producer
  | delivering (entry : SubEntry)
  | claimed (c : Claim)
  | drained (c : Claim)
  | handling (c : Claim) (e : Entry Event)
  | advanced (c : Claim) (e : Entry Event)
  | faulted (c : Claim)
  | recorded (c : Claim)
  | poisoned (c : Claim)
  | skipping (id : String)
  | skipClaimed (id : String) (row : SubRow)
  | skipPicked (id : String) (row : SubRow) (e : Entry Event)
  | skipAdvanced (id : String) (e : Entry Event)
  | reconciling (entry : SubEntry)
  | registered (entry : SubEntry)
  | bumping
  | fenced
  | bumped (generation : Int)
  | sweeping (todo : List GcTarget)
  | deleting (target : GcTarget) (rest : List GcTarget) (batch : List Position)
deriving DecidableEq

/-- The sessions that have a transaction open. -/
def Role.InTx : Role → Prop
  | .closed | .sweeping _ | .deleting _ _ _ => False
  | _ => True

/-- The sessions whose open transaction may append events: producers, and
handlers, also after their delivery timed out and before the backend is gone. -/
def Role.MayAppend : Role → Prop
  | .producer | .handling _ _ | .poisoned _ => True
  | _ => False

instance (r : Role) : Decidable r.InTx := by
  cases r <;> first | exact isTrue trivial | exact isFalse id

instance (r : Role) : Decidable r.MayAppend := by
  cases r <;> first | exact isTrue trivial | exact isFalse id

/-- One backend: the start time of its transaction, its progress in
`append_event`, the uncommitted effect of its handler or skip, its role. -/
structure Session where
  startedAt : Nat
  appending : Appending
  effect : Option Handled
  role : Role

/-- A backend without a transaction. -/
def Session.idle : Session := ⟨0, .idle, none, .closed⟩

/-- The shared state of the plane. -/
structure Plane where
  clock : Nat
  front : Frontier Sess Event
  events : List (Entry Event)
  subs : Table String Sess SubRow
  contracts : Table (String × Int) Sess ContractRow
  session : Sess → Session
  stale : List Claim
  reconciled : List SubEntry
  initial : String → Option Position
  handled : List Handled

/-- The plane after its schema was created. -/
def Plane.start : Plane where
  clock := 0
  front :=
    { nextXid := 3, running := [], nextTie := 1, generation := 1, writers := []
      fence := none, xid := fun _ => none, inflight := fun _ => [], log := [] }
  events := []
  subs := Table.empty
  contracts := Table.empty
  session := fun _ => Session.idle
  stale := []
  reconciled := []
  initial := fun _ => none
  handled := []

/-- The statements of the plane. -/
inductive Act
  | tick (d : Nat)
  | otherXid
  | begin (s : Sess) (role : Role)
  | assignXid (s : Sess)
  | ensureHistory (s : Sess) (topic : String) (version : Nat) (history : HistoryPolicy)
  | seedHistory (topic : String) (version : Nat) (history : HistoryPolicy)
  | appendLock (s : Sess) (req : AppendReq)
  | appendRead (s : Sess) (req : AppendReq)
  | appendInsert (s : Sess) (req : AppendReq) (generation : Int) (eventId : String)
  | bumpLock (s : Sess)
  | bumpUpdate (s : Sess)
  | claim (s : Sess) (entry : SubEntry) (row : SubRow)
  | selectNone (s : Sess) (c : Claim)
  | select (s : Sess) (c : Claim) (e : Entry Event)
  | handle (s : Sess) (c : Claim) (e : Entry Event)
  | advance (s : Sess) (c : Claim) (e : Entry Event) (row : SubRow)
  | fault (s : Sess) (c : Claim) (e : Entry Event)
  | recordFault (s : Sess) (c : Claim) (row : SubRow) (error : String)
  | timeout (s : Sess) (c : Claim) (e : Entry Event)
  | recordStale (c : Claim) (row : SubRow) (error : String)
  | dropStale (c : Claim)
  | operator (cmd : Command) (id : String) (row : SubRow)
  | skipClaim (s : Sess) (id : String) (row : SubRow)
  | skipSelect (s : Sess) (id : String) (row : SubRow) (e : Entry Event)
  | skipAdvance (s : Sess) (id : String) (row : SubRow) (e : Entry Event) (reason : String)
  | register (s : Sess) (entry : SubEntry) (version : Int)
  | commit (s : Sess)
  | abort (s : Sess)
  | sweepList (s : Sess) (targets : List GcTarget)
  | gcDelete (s : Sess) (target : GcTarget) (rest : List GcTarget)
  | gcCommit (s : Sess) (target : GcTarget) (rest : List GcTarget) (batch : List Position)
  | gcFail (s : Sess) (target : GcTarget) (rest : List GcTarget) (batch : List Position)
  | sweepEnd (s : Sess)

namespace Plane

/-- The worker's event select: the least eligible event of the entry's topic and
version above the claimed cursor. -/
def nextEvent (st : Plane) (c : Claim) : Option (Entry Event) :=
  Frontier.pick st.front st.events (Selects c.entry.topic c.version) c.cursor

/-- The event select of `eventctl skip`. -/
def skipEvent (st : Plane) (row : SubRow) : Option (Entry Event) :=
  Frontier.pick st.front st.events row.Selects row.cursor

/-- The contracts `sweep` lists. -/
def gcTargets (st : Plane) : List GcTarget :=
  (st.contracts.rows.filter (fun p => p.2.policy = .minRetention)).map
    (fun p => ⟨p.1.1, p.1.2, p.2.minRetentionDays⟩)

/-- A subscription row that holds back an event of a stream from deletion. -/
def Blocks (target : GcTarget) (p : Position) (row : SubRow) : Prop :=
  row.topic = target.topic ∧ row.contractVersion = target.version ∧
    (row.state = .active ∨ row.state = .paused) ∧ row.cursor ≤ p

instance (target : GcTarget) (p : Position) (row : SubRow) :
    Decidable (Blocks target p row) :=
  inferInstanceAs (Decidable (_ ∧ _))

/-- The condition of the `DELETE` in `gc_topic`. -/
def Reapable (st : Plane) (target : GcTarget) (e : Entry Event) : Prop :=
  Selects target.topic target.version e.data ∧
    (e.data.createdAt : Int) < st.clock - target.days * dayMicros ∧
    ∀ p ∈ st.subs.rows, ¬ Blocks target e.pos p.2

instance (st : Plane) (target : GcTarget) : DecidablePred (st.Reapable target) :=
  fun _ => inferInstanceAs (Decidable (_ ∧ _))

/-- `BATCH`: the rows one `DELETE` takes at most. -/
def batchSize : Nat := 1000

/-- The rows one `DELETE` of `gc_topic` takes, in log order. -/
def gcBatch (st : Plane) (target : GcTarget) : List Position :=
  (((st.events.filter (fun e => st.Reapable target e)).insertionSort
    (fun a b => a.pos ≤ b.pos)).take batchSize).map (·.pos)

/-- What the code checks before it opens a transaction. -/
def MayBegin (st : Plane) : Role → Prop
  | .producer | .bumping | .skipping _ => True
  | .delivering entry => entry ∈ st.reconciled
  | .reconciling entry =>
    ∀ history ∈ entry.history, ∀ version ∈ i32TryFrom entry.version,
      ∃ stored ∈ st.contracts.committed (entry.topic, version),
        ¬ drifted stored (policyColumns history)
  | _ => False

instance (st : Plane) (r : Role) : Decidable (st.MayBegin r) := by
  cases r <;> unfold MayBegin <;> infer_instance

/-- The transactions that have run their last statement. -/
def MayCommit (st : Plane) (s : Sess) : Role → Prop
  | .producer => (st.session s).appending = .idle
  | .drained _ | .advanced _ _ | .recorded _ | .skipAdvanced _ _ | .bumped _ => True
  | .registered entry => (st.subs.view s entry.id).map (·.specHash) = some entry.specHash
  | _ => False

instance (st : Plane) (s : Sess) (r : Role) : Decidable (st.MayCommit s r) := by
  cases r <;> unfold MayCommit <;> infer_instance

/-- When a statement can run. -/
def enabled (st : Plane) : Act → Prop
  | .tick _ => True
  | .otherXid => True
  | .begin s role => (st.session s).role = .closed ∧ st.MayBegin role
  | .assignXid s => (st.session s).role.InTx
  | .ensureHistory s topic version history =>
    (st.session s).role.MayAppend ∧
      ∃ v ∈ i32TryFrom version,
        st.contracts.Free s (topic, v) ∧
          ∀ stored ∈ st.contracts.view s (topic, v), ¬ drifted stored (policyColumns history)
  | .seedHistory topic version history =>
    ∃ v ∈ i32TryFrom version,
      st.contracts.pending (topic, v) = none ∧
        ∀ stored ∈ st.contracts.committed (topic, v), ¬ drifted stored (policyColumns history)
  | .appendLock s _ =>
    (st.session s).role.MayAppend ∧ (st.session s).appending = .idle ∧ st.front.fence = none
  | .appendRead s req => (st.session s).role.MayAppend ∧ (st.session s).appending = .locked req
  | .appendInsert s req generation _ =>
    (st.session s).role.MayAppend ∧
      (st.session s).appending = .stamped req generation ∧ 0 < req.version
  | .bumpLock s => (st.session s).role = .bumping ∧ st.front.writers = [] ∧ st.front.fence = none
  | .bumpUpdate s => (st.session s).role = .fenced
  | .claim s entry row =>
    (st.session s).role = .delivering entry ∧
      st.subs.committed entry.id = some row ∧ st.subs.pending entry.id = none ∧
        row.Due (st.session s).startedAt
  | .selectNone s c => (st.session s).role = .claimed c ∧ st.nextEvent c = none
  | .select s c e => (st.session s).role = .claimed c ∧ st.nextEvent c = some e
  | .handle s c e => (st.session s).role = .handling c e ∧ (st.session s).effect = none
  | .advance s c e row =>
    (st.session s).role = .handling c e ∧ (st.session s).appending = .idle ∧
      (st.session s).effect = some ⟨c.entry.id, e.pos, .delivered⟩ ∧
        st.subs.view s c.entry.id = some row
  | .fault s c e => (st.session s).role = .handling c e
  | .recordFault s c row _ =>
    (st.session s).role = .faulted c ∧ st.subs.view s c.entry.id = some row
  | .timeout s c e => (st.session s).role = .handling c e
  | .recordStale c row _ =>
    c ∈ st.stale ∧ st.subs.committed c.entry.id = some row ∧ st.subs.pending c.entry.id = none
  | .dropStale c => c ∈ st.stale
  | .operator _ id row => st.subs.committed id = some row ∧ st.subs.pending id = none
  | .skipClaim s id row =>
    (st.session s).role = .skipping id ∧ st.subs.committed id = some row ∧
      st.subs.pending id = none ∧ ¬ row.Healthy
  | .skipSelect s id row e => (st.session s).role = .skipClaimed id row ∧ st.skipEvent row = some e
  | .skipAdvance s id row e _ => (st.session s).role = .skipPicked id row e
  | .register s entry version =>
    (st.session s).role = .reconciling entry ∧ i32TryFrom entry.version = some version ∧
      ((st.subs.committed entry.id).isSome ∨ st.subs.pending entry.id = none)
  | .commit s => st.MayCommit s (st.session s).role
  | .abort s => (st.session s).role.InTx
  | .sweepList s targets => (st.session s).role = .closed ∧ targets.Perm st.gcTargets
  | .gcDelete s target rest => (st.session s).role = .sweeping (target :: rest)
  | .gcCommit s target rest batch => (st.session s).role = .deleting target rest batch
  | .gcFail s target rest batch => (st.session s).role = .deleting target rest batch
  | .sweepEnd s => (st.session s).role = .sweeping []

/-- The session `s` moves to another role. -/
def become (st : Plane) (s : Sess) (r : Role) : Sess → Session :=
  Function.update st.session s { st.session s with role := r }

/-- The log after the commit of `s`. -/
def committedFront (st : Plane) (s : Sess) : Role → Frontier Sess Event
  | .bumped g => st.front.bump s g
  | _ => st.front.commit s

/-- The entries known to be reconciled after the commit of `s`. -/
def committedReconciled (st : Plane) : Role → List SubEntry
  | .registered entry => entry :: st.reconciled
  | _ => st.reconciled

/-- The initial cursors after the commit of `s`. -/
def committedInitial (st : Plane) (s : Sess) : Role → String → Option Position
  | .registered entry =>
    match st.subs.committed entry.id with
    | some _ => st.initial
    | none =>
      Function.update st.initial entry.id
        ((st.subs.view s entry.id).map (·.cursor))
  | _ => st.initial

/-- The state a statement leaves. -/
def effect (st : Plane) : Act → Plane
  | .tick d => { st with clock := st.clock + d }
  | .otherXid => { st with front := st.front.burn }
  | .begin s role =>
    { st with
      session := Function.update st.session s ⟨st.clock, .idle, none, role⟩ }
  | .assignXid s => { st with front := st.front.assign s }
  | .ensureHistory s topic version history =>
    match i32TryFrom version with
    | none => st
    | some v =>
      match st.contracts.view s (topic, v) with
      | some _ => st
      | none =>
        { st with
          front := st.front.assign s
          contracts := st.contracts.write s (topic, v) (some (policyColumns history)) }
  | .seedHistory topic version history =>
    match i32TryFrom version with
    | none => st
    | some v =>
      match st.contracts.committed (topic, v) with
      | some _ => st
      | none =>
        { st with
          front := st.front.burn
          contracts := st.contracts.put (topic, v) (some (policyColumns history)) }
  | .appendLock s req =>
    { st with
      front := st.front.share s
      session := Function.update st.session s { st.session s with appending := .locked req } }
  | .appendRead s req =>
    { st with
      session :=
        Function.update st.session s
          { st.session s with appending := .stamped req st.front.generation } }
  | .appendInsert s req generation eventId =>
    { st with
      front :=
        st.front.append s generation
          ⟨req.topic, req.version, eventId, req.payload, (st.session s).startedAt⟩
      session := Function.update st.session s { st.session s with appending := .idle } }
  | .bumpLock s =>
    { st with
      front := st.front.exclude s
      session := st.become s .fenced }
  | .bumpUpdate s =>
    { st with
      front := st.front.assign s
      session := st.become s (.bumped (st.front.generation + 1)) }
  | .claim s entry row =>
    { st with
      front := st.front.assign s
      subs := st.subs.write s entry.id (some row)
      session := st.become s (.claimed ⟨entry, row.cursor, row.consecutiveFailures⟩) }
  | .selectNone s c => { st with session := st.become s (.drained c) }
  | .select s c e => { st with session := st.become s (.handling c e) }
  | .handle s c e =>
    { st with
      session :=
        Function.update st.session s
          { st.session s with effect := some ⟨c.entry.id, e.pos, .delivered⟩ } }
  | .advance s c e row =>
    { st with
      subs := st.subs.write s c.entry.id (some (row.advance e.pos (st.session s).startedAt))
      session := st.become s (.advanced c e) }
  | .fault s c _ =>
    { st with
      front := st.front.undo s
      contracts := st.contracts.rollback s
      session :=
        Function.update st.session s
          { st.session s with appending := .idle, effect := none, role := .faulted c } }
  | .recordFault s c row error =>
    { st with
      subs :=
        st.subs.write s c.entry.id
          (some (row.recordFailure c error (st.session s).startedAt))
      session := st.become s (.recorded c) }
  | .timeout s c _ =>
    { st with
      session := st.become s (.poisoned c)
      stale := c :: st.stale }
  | .recordStale c row error =>
    { st with
      front := st.front.burn
      subs := st.subs.put c.entry.id (some (row.recordFailure c error st.clock))
      stale := st.stale.erase c }
  | .dropStale c => { st with stale := st.stale.erase c }
  | .operator cmd id row =>
    { st with
      front := st.front.burn
      subs := st.subs.put id (some (cmd.apply row st.clock)) }
  | .skipClaim s id row =>
    { st with
      front := st.front.assign s
      subs := st.subs.write s id (some row)
      session := st.become s (.skipClaimed id row) }
  | .skipSelect s id row e => { st with session := st.become s (.skipPicked id row e) }
  | .skipAdvance s id row e reason =>
    { st with
      subs := st.subs.write s id (some (row.skip e reason (st.session s).startedAt))
      session :=
        Function.update st.session s
          { st.session s with
            effect := some ⟨id, e.pos, .skipped⟩
            role := .skipAdvanced id e } }
  | .register s entry version =>
    match st.subs.committed entry.id with
    | some _ => { st with session := st.become s (.registered entry) }
    | none =>
      { st with
        front := st.front.assign s
        subs :=
          st.subs.write s entry.id
            (some (entry.newRow version
              (startCursor st.front.generation (st.front.current s) entry.start)
              (st.session s).startedAt))
        session := st.become s (.registered entry) }
  | .commit s =>
    { st with
      front := st.committedFront s (st.session s).role
      events := st.events ++ st.front.inflight s
      subs := st.subs.commit s
      contracts := st.contracts.commit s
      session := Function.update st.session s Session.idle
      reconciled := st.committedReconciled (st.session s).role
      initial := st.committedInitial s (st.session s).role
      handled := st.handled ++ (st.session s).effect.toList }
  | .abort s =>
    { st with
      front := st.front.close s
      subs := st.subs.rollback s
      contracts := st.contracts.rollback s
      session := Function.update st.session s Session.idle }
  | .sweepList s targets => { st with session := st.become s (.sweeping targets) }
  | .gcDelete s target rest =>
    { st with
      front := st.front.assign s
      session :=
        Function.update st.session s
          { st.session s with
            startedAt := st.clock
            role := .deleting target rest (st.gcBatch target) } }
  | .gcCommit s target rest batch =>
    { st with
      front := st.front.close s
      events := st.events.filter (fun e => e.pos ∉ batch)
      session :=
        st.become s (.sweeping
          (if (st.events.filter (fun e => e.pos ∈ batch)).length < batchSize then rest
           else target :: rest)) }
  | .gcFail s _ rest _ =>
    { st with
      front := st.front.close s
      session := st.become s (.sweeping rest) }
  | .sweepEnd s => { st with session := Function.update st.session s Session.idle }

instance (st : Plane) (a : Act) : Decidable (st.enabled a) := by
  cases a <;> unfold enabled <;> infer_instance

/-- The event plane. -/
def system : TransitionSystem Plane Act where
  start := Plane.start
  enabled := enabled
  effect := effect

instance (st : Plane) (a : Act) : Decidable (system.enabled st a) :=
  inferInstanceAs (Decidable (st.enabled a))

end Plane
end Swarog.AsyncEvents
